import LineBasic.Token.Basic

/-!
# Equality of tokens and statements

Tokens and statements are trees of each other and of lists of tokens. Whether two are the same is
decided by walking both, so that what a text is read as can be computed.
-/
namespace LineBasic

mutual

def Token.same : Token → Token → Bool
  | .unknown a, .unknown b => a == b
  | .comma, .comma => true
  | .newline, .newline => true
  | .number a, .number b => a == b
  | .word a, .word b => a == b
  | .quoted a, .quoted b => a == b
  | .lparen, .lparen => true
  | .rparen, .rparen => true
  | .op o, .op p => o == p
  | .expression as, .expression bs => Token.sameAll as bs
  | .call f as, .call g bs => f == g && Token.sameAll as bs
  | .statement s, .statement t => s.same t
  | _, _ => false

def Token.sameAll : List Token → List Token → Bool
  | [], [] => true
  | a :: as, b :: bs => a.same b && Token.sameAll as bs
  | _, _ => false

def Statement.same : Statement → Statement → Bool
  | ⟨k, as, l⟩, ⟨k', bs, l'⟩ => k == k' && Token.sameAll as bs && l == l'

end

mutual

theorem Token.same_iff (a b : Token) : a.same b = true ↔ a = b := by
  cases a with
  | expression as => cases b <;> simp [Token.same, Token.sameAll_iff as]
  | call f as => cases b <;> simp [Token.same, Token.sameAll_iff as]
  | statement s => cases b <;> simp [Token.same, Statement.same_iff s]
  | _ => cases b <;> simp [Token.same]

theorem Token.sameAll_iff (as bs : List Token) : Token.sameAll as bs = true ↔ as = bs := by
  cases as with
  | nil => cases bs <;> simp [Token.sameAll]
  | cons a as => cases bs <;> simp [Token.sameAll, Token.same_iff a, Token.sameAll_iff as]

theorem Statement.same_iff (s t : Statement) : s.same t = true ↔ s = t := by
  cases s with
  | mk k as l =>
    cases t
    simp [Statement.same, Token.sameAll_iff as, and_assoc]

end

instance : DecidableEq Token :=
  fun a b => decidable_of_iff _ (Token.same_iff a b)

instance : DecidableEq Statement :=
  fun s t => decidable_of_iff _ (Statement.same_iff s t)

end LineBasic
