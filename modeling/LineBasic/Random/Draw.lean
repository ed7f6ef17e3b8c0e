import LineBasic.Random.Stream

/-!
# Drawing a number

A word of the stream becomes a number in `1..n` by a multiplication whose high half is the result.
Words that would favour some results are refused, so that all are equally likely.
-/
namespace LineBasic.Random

/-- The number of words. -/
def wordCount : Nat := 0x100000000

/-- Whether the product of a word with `n` is kept: the low halves that are kept are a multiple of
`n` in number. -/
def isFair (n product : Nat) : Bool :=
  product % wordCount < wordCount - (wordCount - n) % n

/-- Draws a number in `1..n`. Of `refusals + 1` words the last is kept whatever it is. -/
def drawWithin (n : Nat) : (refusals : Nat) → Generator → Nat × Generator
  | 0, g => (1 + g.next.1.toNat * n / wordCount, g.next.2)
  | refusals + 1, g =>
    let (w, g) := g.next
    let product := w.toNat * n
    if isFair n product then (1 + product / wordCount, g) else drawWithin n refusals g

/-- Draws a number in `1..n`, for a positive `n`. A word is refused with a chance below
`n / wordCount`, so the bound on refusals is never met. -/
def draw (n : Int16) (g : Generator) : Int16 × Generator :=
  let (v, g) := drawWithin n.toInt.toNat 1000 g
  (Int16.ofNat v, g)

theorem high_half_lt (w : UInt32) {n : Nat} (h : 0 < n) : w.toNat * n / wordCount < n := by
  have hw : w.toNat < wordCount := w.toNat_lt
  apply Nat.div_lt_of_lt_mul
  exact Nat.mul_lt_mul_of_pos_right hw h

theorem drawWithin_mem {n : Nat} (h : 0 < n) (refusals : Nat) (g : Generator) :
    1 ≤ (drawWithin n refusals g).1 ∧ (drawWithin n refusals g).1 ≤ n := by
  have kept (w : UInt32) : 1 ≤ 1 + w.toNat * n / wordCount ∧ 1 + w.toNat * n / wordCount ≤ n :=
    ⟨Nat.le_add_right 1 _, Nat.one_add_le_iff.2 (high_half_lt w h)⟩
  induction refusals generalizing g with
  | zero => exact kept g.next.1
  | succ k ih =>
    simp only [drawWithin]
    split
    · exact kept g.next.1
    · exact ih _

/-- A draw from `1..n` is in `1..n`. -/
theorem draw_mem {n : Int16} (h : 1 ≤ n.toInt) (g : Generator) :
    1 ≤ (draw n g).1.toInt ∧ (draw n g).1.toInt ≤ n.toInt := by
  have hmem := drawWithin_mem (n := n.toInt.toNat) (by omega) 1000 g
  have hbound : n.toInt < 2 ^ 15 := n.toInt_lt
  show 1 ≤ (Int16.ofNat (drawWithin n.toInt.toNat 1000 g).1).toInt ∧
    (Int16.ofNat (drawWithin n.toInt.toNat 1000 g).1).toInt ≤ n.toInt
  generalize (drawWithin n.toInt.toNat 1000 g).1 = v at hmem ⊢
  rw [Int16.toInt_ofNat_of_lt (by omega)]
  omega

end LineBasic.Random
