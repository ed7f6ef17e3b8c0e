import LineBasic.Token.Lexer
import Mathlib.Data.List.TakeWhile

/-!
# Lexemes

A lexeme is a token that the lexer makes. Its text reads back as the token itself, in front of any
text that it does not run on into (`lex_lexeme`), so a text is lexed from its last token to its
first, one lexeme at a time.
-/
namespace LineBasic

/-! ## One step of the lexer -/

theorem lex_cons (c : Char) (cs : List Char) :
    lex (c :: cs) = (scan c cs).bind fun (t, rest) => (t.toList ++ ·) <$> lex rest := by
  rw [lex]
  split <;> simp_all [Except.bind]

theorem scan_of_isSpace {c : Char} (h : isSpace c = true) (cs : List Char) :
    scan c cs = .ok (none, cs) := by
  unfold scan
  split
  case h_17 => simp [h]
  all_goals exact absurd h (by decide)

/-- A character that is no delimiter starts a number or a word. -/
theorem scan_of_not_isDelimiter {c : Char} (h : isDelimiter c = false) (cs : List Char) :
    scan c cs =
      if c.isDigit then
        .ok (some (.number (String.ofList (c :: cs.takeWhile Char.isDigit))),
          cs.dropWhile Char.isDigit)
      else
        .ok (some (.word (String.ofList (c :: cs.takeWhile (!isDelimiter ·)))),
          cs.dropWhile (!isDelimiter ·)) := by
  unfold scan
  split
  case h_17 => simp_all [isDelimiter]
  all_goals exact absurd h (by decide)

theorem lex_of_isSpace {c : Char} (h : isSpace c = true) (cs : List Char) :
    lex (c :: cs) = lex cs := by
  rw [lex_cons, scan_of_isSpace h]
  show (_ <$> lex cs : Except Error _) = lex cs
  cases lex cs <;> rfl

theorem lex_dropWhile_isSpace (cs : List Char) : lex (cs.dropWhile isSpace) = lex cs := by
  induction cs with
  | nil => rfl
  | cons c cs ih =>
    by_cases h : isSpace c = true
    · rw [List.dropWhile_cons_of_pos h, ih, lex_of_isSpace h]
    · rw [List.dropWhile_cons_of_neg h]

/-! ## Classes of characters -/

theorem isDelimiter_of_isDigit {c : Char} (h : c.isDigit = true) : isDelimiter c = false := by
  simp only [Char.isDigit, Bool.and_eq_true, decide_eq_true_eq] at h
  have h1 : 48 ≤ c.toNat := h.1
  have h2 : c.toNat ≤ 57 := h.2
  have hne (d : Char) (hd : d.toNat < 48 ∨ 57 < d.toNat) : c ≠ d := by
    rintro rfl
    omega
  have hs : isSpace c = false := by
    simp [isSpace, Text.isBlank]
    omega
  simp [isDelimiter, isSymbol, hs, hne]

theorem isDigit_of_isDelimiter {c : Char} (h : isDelimiter c = true) : c.isDigit = false := by
  cases hd : c.isDigit with
  | false => rfl
  | true =>
    rw [isDelimiter_of_isDigit hd] at h
    cases h

theorem isDelimiter_of_isSpace {c : Char} (h : isSpace c = true) : isDelimiter c = true := by
  simp [isDelimiter, h]

/-- No number and no word runs on into the text. -/
def Breaks (cs : List Char) : Prop :=
  ∀ c ∈ cs.head?, isDelimiter c = true

theorem breaks_nil : Breaks [] := by
  simp [Breaks]

theorem breaks_cons {c : Char} (h : isDelimiter c = true) (cs : List Char) : Breaks (c :: cs) := by
  simpa [Breaks] using h

/-! ## Lexemes -/

/-- The tokens that the lexer makes. -/
def Token.IsLexeme : Token → Prop
  | .comma | .newline | .lparen | .rparen | .op _ => True
  | .number digits => digits.toList ≠ [] ∧ ∀ c ∈ digits.toList, c.isDigit = true
  | .word w => ∃ c cs, w.toList = c :: cs ∧ c.isDigit = false ∧ ∀ d ∈ c :: cs, isDelimiter d = false
  | .quoted text => ∀ c ∈ text.toList, isQuotable c = true
  | _ => False

/-- The token does not run on into the text `cs`. -/
def Token.EndsAt (t : Token) (cs : List Char) : Prop :=
  match t with
  | .number _ => ∀ c ∈ cs.head?, c.isDigit = false
  | .word _ => Breaks cs
  | .op .less => ∀ c ∈ cs.head?, c ≠ '>' ∧ c ≠ '='
  | .op .greater => ∀ c ∈ cs.head?, c ≠ '<' ∧ c ≠ '='
  | _ => True

theorem Token.endsAt_nil (t : Token) : t.EndsAt [] := by
  unfold EndsAt
  split <;> simp [Breaks]

theorem Token.endsAt_number {digits : String} {cs : List Char} (h : Breaks cs) :
    (Token.number digits).EndsAt cs :=
  fun c hc => isDigit_of_isDelimiter (h c hc)

/-- An arithmetic operator is a single character, whatever follows it. -/
theorem Token.endsAt_of_isArithmetic {o : Operator} (h : o.isArithmetic = true) (cs : List Char) :
    (Token.op o).EndsAt cs := by
  cases o <;> trivial

theorem takeWhile_append_of_head {α : Type} {p : α → Bool} {l r : List α}
    (hl : ∀ a ∈ l, p a = true) (hr : ∀ a ∈ r.head?, p a = false) :
    (l ++ r).takeWhile p = l ∧ (l ++ r).dropWhile p = r := by
  rw [List.takeWhile_append_of_pos hl, List.dropWhile_append_of_pos hl]
  cases r with
  | nil => simp
  | cons a r => simp [hr a (by simp)]

theorem head_dropWhile {α : Type} (p : α → Bool) (l : List α) :
    ∀ a ∈ (l.dropWhile p).head?, p a = false := by
  intro a ha
  have := List.head?_dropWhile_not p l
  rw [ha] at this
  simpa using this

/-- The lexer reads a lexeme back from its text. -/
theorem scan_lexeme {t : Token} (ht : t.IsLexeme) {cs : List Char} (hc : t.EndsAt cs) :
    ∃ c r, t.render.toList = c :: r ∧ scan c (r ++ cs) = .ok (some t, cs) := by
  cases t with
  | comma => exact ⟨',', [], rfl, rfl⟩
  | newline => exact ⟨'\n', [], rfl, rfl⟩
  | lparen => exact ⟨'(', [], rfl, rfl⟩
  | rparen => exact ⟨')', [], rfl, rfl⟩
  | number digits =>
    obtain ⟨hne, hd⟩ := ht
    obtain ⟨c, r, hcr⟩ := List.exists_cons_of_ne_nil hne
    rw [hcr] at hd
    have hc0 := hd c (by simp)
    obtain ⟨htake, hdrop⟩ :=
      takeWhile_append_of_head (fun a ha => hd a (List.mem_cons_of_mem c ha)) hc
    refine ⟨c, r, hcr, ?_⟩
    rw [scan_of_not_isDelimiter (isDelimiter_of_isDigit hc0), if_pos hc0, htake, hdrop, ← hcr,
      String.ofList_toList]
  | word w =>
    obtain ⟨c, r, hcr, hc0, hd⟩ := ht
    obtain ⟨htake, hdrop⟩ := takeWhile_append_of_head (p := (!isDelimiter ·)) (l := r) (r := cs)
      (fun a ha => by simp [hd a (List.mem_cons_of_mem c ha)]) (fun a ha => by simp [hc a ha])
    refine ⟨c, r, hcr, ?_⟩
    rw [scan_of_not_isDelimiter (hd c (by simp)), if_neg (by simp [hc0]), htake, hdrop, ← hcr,
      String.ofList_toList]
  | quoted text =>
    obtain ⟨htake, hdrop⟩ :=
      takeWhile_append_of_head (p := isQuotable) (r := '"' :: cs) ht (by simp [isQuotable])
    refine ⟨'"', text.toList ++ ['"'], by simp [Token.render], ?_⟩
    simp [scan, htake, hdrop]
  | op o =>
    cases o with
    | less =>
      refine ⟨'<', [], rfl, ?_⟩
      cases cs with
      | nil => rfl
      | cons c cs =>
        obtain ⟨h1, h2⟩ := hc c (by simp)
        simp [scan, h1, h2]
    | greater =>
      refine ⟨'>', [], rfl, ?_⟩
      cases cs with
      | nil => rfl
      | cons c cs =>
        obtain ⟨h1, h2⟩ := hc c (by simp)
        simp [scan, h1, h2]
    | plus => exact ⟨'+', [], rfl, rfl⟩
    | minus => exact ⟨'-', [], rfl, rfl⟩
    | times => exact ⟨'*', [], rfl, rfl⟩
    | divide => exact ⟨'/', [], rfl, rfl⟩
    | equal => exact ⟨'=', [], rfl, rfl⟩
    | notEqual => exact ⟨'<', ['>'], rfl, rfl⟩
    | lessEqual => exact ⟨'<', ['='], rfl, rfl⟩
    | greaterEqual => exact ⟨'>', ['='], rfl, rfl⟩
  | unknown | expression | call | statement => exact ht.elim

/-- A lexeme in front of a text is its first token. -/
theorem lex_lexeme {t : Token} (ht : t.IsLexeme) {cs : List Char} (hc : t.EndsAt cs)
    {ts : List Token} (h : lex cs = .ok ts) : lex (t.render.toList ++ cs) = .ok (t :: ts) := by
  obtain ⟨c, r, hr, hs⟩ := scan_lexeme ht hc
  rw [hr, List.cons_append, lex_cons, hs]
  show (_ <$> lex cs : Except Error _) = _
  rw [h]
  rfl

theorem scan_eq_none {c : Char} {cs rest : List Char} (h : scan c cs = .ok (none, rest)) :
    isSpace c = true ∧ rest = cs := by
  unfold scan at h
  split at h
  case h_16 =>
    dsimp only at h
    split at h <;> cases h
  case h_17 =>
    split at h
    · next hs =>
      cases h
      exact ⟨hs, rfl⟩
    · split at h <;> cases h
  all_goals cases h

/-- What the lexer reads is a lexeme in front of the rest, in its own text or as `><`. -/
theorem scan_eq_some {c : Char} {cs rest : List Char} {t : Token}
    (h : scan c cs = .ok (some t, rest)) :
    t.IsLexeme ∧ t.EndsAt rest ∧
      (c :: cs = t.render.toList ++ rest ∨ t = .op .notEqual ∧ c :: cs = '>' :: '<' :: rest) := by
  unfold scan at h
  split at h
  case h_12 hn he =>
    cases h
    refine ⟨trivial, fun d hd => ?_, .inl rfl⟩
    obtain ⟨ds, rfl⟩ := List.head?_eq_some_iff.1 hd
    exact ⟨fun h => hn ds (h ▸ rfl), fun h => he ds (h ▸ rfl)⟩
  case h_13 =>
    cases h
    exact ⟨trivial, trivial, .inr ⟨rfl, rfl⟩⟩
  case h_15 hn he =>
    cases h
    refine ⟨trivial, fun d hd => ?_, .inl rfl⟩
    obtain ⟨ds, rfl⟩ := List.head?_eq_some_iff.1 hd
    exact ⟨fun h => hn ds (h ▸ rfl), fun h => he ds (h ▸ rfl)⟩
  case h_16 =>
    dsimp only at h
    split at h
    · next r hr =>
      cases h
      refine ⟨fun d hd => ?_, trivial, .inl ?_⟩
      · rw [String.toList_ofList] at hd
        exact List.mem_takeWhile_imp hd
      · have := List.takeWhile_append_dropWhile (p := isQuotable) (l := cs)
        rw [hr] at this
        simp [Token.render, this]
    · cases h
  case h_17 =>
    split at h
    · cases h
    · split at h
      · next hd =>
        cases h
        refine ⟨⟨by simp, fun a ha => ?_⟩, head_dropWhile _ _, .inl (by simp [Token.render])⟩
        rw [String.toList_ofList] at ha
        rcases List.mem_cons.1 ha with rfl | ha
        · exact hd
        · exact List.mem_takeWhile_imp ha
      · next hd =>
        cases h
        refine ⟨⟨c, _, String.toList_ofList, by simpa using hd, fun a ha => ?_⟩,
          fun d hd => by simpa using head_dropWhile (!isDelimiter ·) cs d hd,
          .inl (by simp [Token.render])⟩
        rcases List.mem_cons.1 ha with rfl | ha
        · simp_all [isDelimiter, isSymbol]
        · simpa using List.mem_takeWhile_imp ha
  all_goals
    cases h
    exact ⟨trivial, trivial, .inl rfl⟩

/-- Apart from spaces, a text that is lexed starts with its first token. -/
theorem lex_cons_eq_ok {c : Char} {cs : List Char} {ts : List Token} (h : lex (c :: cs) = .ok ts) :
    (isSpace c = true ∧ lex cs = .ok ts) ∨
      ∃ t rest us, scan c cs = .ok (some t, rest) ∧ lex rest = .ok us ∧ ts = t :: us := by
  rw [lex_cons] at h
  cases hscan : scan c cs with
  | error e =>
    rw [hscan] at h
    cases h
  | ok r =>
    obtain ⟨t, rest⟩ := r
    rw [hscan] at h
    change (t.toList ++ ·) <$> lex rest = _ at h
    cases hrest : lex rest with
    | error e =>
      rw [hrest] at h
      cases h
    | ok us =>
      rw [hrest] at h
      cases h
      cases t with
      | none =>
        obtain ⟨hs, rfl⟩ := scan_eq_none hscan
        exact .inl ⟨hs, hrest⟩
      | some t => exact .inr ⟨t, rest, us, rfl, hrest, rfl⟩

/-- How a text is cut into tokens, from its first character to its last. -/
inductive Lexed : List Char → List Token → Prop
  | nil : Lexed [] []
  | space {c : Char} {cs : List Char} {ts : List Token} : isSpace c = true → Lexed cs ts → Lexed (c :: cs) ts
  | token {c : Char} {cs rest : List Char} {t : Token} {us : List Token} :
      scan c cs = .ok (some t, rest) → Lexed rest us → Lexed (c :: cs) (t :: us)

theorem lexed_of_lex {cs : List Char} {ts : List Token} (h : lex cs = .ok ts) : Lexed cs ts := by
  induction hn : cs.length using Nat.strong_induction_on generalizing cs ts with
  | _ n ih =>
    subst hn
    cases cs with
    | nil =>
      rw [lex] at h
      cases h
      exact .nil
    | cons c cs =>
      rcases lex_cons_eq_ok h with ⟨hs, h⟩ | ⟨t, rest, us, hscan, hrest, rfl⟩
      · exact .space hs (ih _ (by simp) h rfl)
      · have hlen := scan_length hscan
        exact .token hscan (ih _ (by simp; omega) hrest rfl)

theorem Lexed.lex_eq {cs : List Char} {ts : List Token} (h : Lexed cs ts) : lex cs = .ok ts := by
  induction h with
  | nil => rw [lex]
  | space hs _ ih => rw [lex_of_isSpace hs, ih]
  | token hscan _ ih =>
    rw [lex_cons, hscan]
    show (_ <$> lex _ : Except Error _) = _
    rw [ih]
    rfl

/-- The lexer makes nothing but lexemes. -/
theorem isLexeme_of_lex {cs : List Char} {ts : List Token} (h : lex cs = .ok ts) :
    ∀ t ∈ ts, t.IsLexeme := by
  replace h := lexed_of_lex h
  induction h with
  | nil => simp
  | space _ _ ih => exact ih
  | token hscan _ ih => exact List.forall_mem_cons.2 ⟨(scan_eq_some hscan).1, ih⟩

end LineBasic
