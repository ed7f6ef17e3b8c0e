/-!
# Decimal numbers in text

Numbers are read from the ten ASCII digits, most significant first.
-/
namespace LineBasic.Text

/-- The value of an ASCII digit. -/
def digit (c : Char) : Nat :=
  c.toNat - '0'.toNat

theorem digit_lt {c : Char} (h : c.isDigit = true) : digit c < 10 := by
  simp only [Char.isDigit, Bool.and_eq_true, decide_eq_true_eq] at h
  have hle : c.toNat ≤ 57 := h.2
  simp only [digit, Char.reduceToNat]
  omega

/-- The number that a nonempty run of digits spells. -/
def decimal? (cs : List Char) : Option Nat :=
  if cs ≠ [] && cs.all Char.isDigit then some (cs.foldl (fun n c => 10 * n + digit c) 0) else none

/-- A count that fits in 64 bits, with or without a plus sign. -/
def count? (cs : List Char) : Option Nat :=
  let digits := match cs with
    | '+' :: ds => ds
    | ds => ds
  (decimal? digits).filter (· ≤ 0xFFFFFFFFFFFFFFFF)

/-- Puts blanks before `s` until it has `width` characters. -/
def padLeft (width : Nat) (s : String) : String :=
  String.ofList (List.replicate (width - s.length) ' ') ++ s

end LineBasic.Text
