/-!
# Blank characters and lines of text

The blank characters are those of the Unicode property `White_Space`. Text is cut at them (`trim`,
`words`) and at line feeds: `lines` reads the lines of a file and takes a carriage return before the
line feed for a part of it, `feeds` cuts at the line feeds alone and loses nothing else. All
functions work on lists of characters.
-/
namespace LineBasic.Text

/-- The Unicode property `White_Space`. -/
def isBlank (c : Char) : Bool :=
  let n := c.toNat
  (9 ≤ n && n ≤ 13) || n == 0x20 || n == 0x85 || n == 0xA0 || n == 0x1680 ||
    (0x2000 ≤ n && n ≤ 0x200A) || n == 0x2028 || n == 0x2029 || n == 0x202F || n == 0x205F ||
    n == 0x3000

/-- Every blank that core knows is in the table. -/
theorem isBlank_of_isWhitespace {c : Char} (h : c.isWhitespace = true) : isBlank c = true := by
  simp only [Char.isWhitespace, Bool.or_eq_true, decide_eq_true_eq] at h
  rcases h with ((rfl | rfl) | rfl) | rfl <;> rfl

def trimStart (cs : List Char) : List Char :=
  cs.dropWhile isBlank

def trimEnd (cs : List Char) : List Char :=
  (cs.reverse.dropWhile isBlank).reverse

/-- Drops the blanks at both ends. -/
def trim (cs : List Char) : List Char :=
  trimEnd (trimStart cs)

/-- The maximal runs of characters that are not blank. -/
def words : List Char → List (List Char)
  | [] => []
  | c :: cs =>
    if isBlank c then words cs
    else
      match cs with
      | [] => [[c]]
      | d :: _ =>
        if isBlank d then [c] :: words cs
        else
          match words cs with
          | [] => [[c]]
          | w :: ws => (c :: w) :: ws

/-- The lines of a text. A line feed ends a line, together with one carriage return before it; the
last line need not be ended, and nothing follows a final line feed. -/
def lines : List Char → List (List Char)
  | [] => []
  | '\n' :: cs => [] :: lines cs
  | '\r' :: '\n' :: cs => [] :: lines cs
  | c :: cs =>
    match lines cs with
    | [] => [[c]]
    | l :: ls => (c :: l) :: ls

/-- The pieces of a text between its line feeds, one more than there are line feeds. -/
def feeds : List Char → List (List Char)
  | [] => [[]]
  | '\n' :: cs => [] :: feeds cs
  | c :: cs => (feeds cs).modifyHead (c :: ·)

theorem length_feeds (cs : List Char) : (feeds cs).length = cs.count '\n' + 1 := by
  fun_induction feeds cs with
  | case1 => rfl
  | case2 cs ih => simp [ih]
  | case3 c cs h ih => simpa [ih, List.count_cons] using h

/-- What stands before the first line feed goes to the first piece. -/
theorem feeds_append {t : List Char} (h : '\n' ∉ t) (cs : List Char) :
    feeds (t ++ cs) = (feeds cs).modifyHead (t ++ ·) := by
  induction t with
  | nil => cases hcs : feeds cs <;> simp [hcs]
  | cons c t ih =>
    obtain ⟨hc, ht⟩ : '\n' ≠ c ∧ '\n' ∉ t := by simpa using h
    rw [List.cons_append, feeds, ih ht, List.modifyHead_modifyHead]
    · rfl
    · exact hc.symm

/-- The pieces, joined by line feeds, are the text. -/
theorem intercalate_feeds (cs : List Char) : ['\n'].intercalate (feeds cs) = cs := by
  fun_induction feeds cs with
  | case1 => rfl
  | case2 cs ih =>
    obtain ⟨l, ls, hl⟩ := List.exists_cons_of_length_eq_add_one (length_feeds cs)
    rw [hl, List.intercalate_cons_cons, ← hl, ih]
    rfl
  | case3 c cs h ih =>
    obtain ⟨l, ls, hl⟩ := List.exists_cons_of_length_eq_add_one (length_feeds cs)
    rw [hl] at ih ⊢
    cases ls <;> simp_all [List.intercalate_cons_cons]

end LineBasic.Text
