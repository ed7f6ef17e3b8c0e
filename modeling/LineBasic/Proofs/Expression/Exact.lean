import LineBasic.Proofs.Expression.Meaning
import Mathlib.Data.Int.ModEq

/-!
# Exact values

The evaluator brings the value of every numeral, sign, sum and product back to 16 bits. It makes no
difference where that is done: an expression without quotients and random numbers has an exact value among
all integers (`Tree.integer?`), and what the evaluator finds is the word of 16 bits that agrees with it modulo
`2 ^ 16` (`evaluate_exact`).
-/
namespace LineBasic.Expression

/-! ## The value among all integers -/

def Sign.signed : Sign → Int → Int
  | plus, z => z
  | minus, z => -z

mutual

/-- The value of a tree among all integers. It has none if there is a quotient, a call or a variable without
a value in it. -/
def Tree.integer? (memory : Memory) : Tree → Option Int
  | .signed signs t => (t.integer? memory).map fun z => signs.foldr Sign.signed z
  | .sum e o t => do
    let a ← e.integer? memory
    let b ← t.integer? memory
    return a + o.signed b

def Term.integer? (memory : Memory) : Term → Option Int
  | .factor f => f.integer? memory
  | .product t .times f => do
    let a ← t.integer? memory
    let b ← f.integer? memory
    return a * b
  | .product _ .divide _ => none

def Factor.integer? (memory : Memory) : Factor → Option Int
  | .number n => some (natValue n)
  | .letter v => (memory.read v.1).toOption.map Int16.toInt
  | .call _ _ => none
  | .group e => e.integer? memory

end

/-! ## Words of 16 bits -/

/-- The word that agrees with an integer modulo `2 ^ 16`. -/
theorem toInt_modEq_iff {w : Int16} {z : Int} : w.toInt ≡ z [ZMOD 2 ^ 16] ↔ w = .ofInt z := by
  rw [eq_comm, Int16.ofInt_eq_iff_bmod_eq_toInt]
  constructor
  · intro h
    calc z.bmod (2 ^ 16)
        = (z % (2 ^ 16 : Nat)).bmod (2 ^ 16) := (Int.emod_bmod z _).symm
      _ = (w.toInt % (2 ^ 16 : Nat)).bmod (2 ^ 16) := congrArg (Int.bmod · (2 ^ 16)) h.symm
      _ = w.toInt.bmod (2 ^ 16) := Int.emod_bmod w.toInt _
      _ = w.toInt := Int16.toInt_bmod w
  · intro h
    rw [← h]
    exact Int.bmod_emod

theorem Sign.apply_ofInt (o : Sign) (z : Int) : o.apply (.ofInt z) = .ofInt (o.signed z) := by
  rw [apply_eq]
  cases o with
  | plus => rfl
  | minus => exact (Int16.ofInt_neg z).symm

theorem Sign.foldr_apply_ofInt (signs : List Sign) (z : Int) :
    signs.foldr Sign.apply (.ofInt z) = .ofInt (signs.foldr Sign.signed z) :=
  List.foldr_hom Int16.ofInt apply_ofInt

theorem Sign.combine_ofInt (o : Sign) (a b : Int) :
    o.combine (.ofInt a) (.ofInt b) = .ofInt (a + o.signed b) := by
  rw [combine_eq]
  cases o with
  | plus => exact (Int16.ofInt_add a b).symm
  | minus => exact ((congrArg Int16.ofInt Int.sub_eq_add_neg).symm.trans (Int16.ofInt_sub a b)).symm

theorem Scaling.combine_ofInt (a b : Int) :
    times.combine (.ofInt a) (.ofInt b) = .ok (.ofInt (a * b)) := by
  rw [combine, Int16.ofInt_mul, Int16.ofInt_toInt, Int16.ofInt_toInt, Int16.ofInt_mul]

/-! ## The evaluator finds the exact value -/

-- The recursion is on the tree.
mutual

theorem Tree.value_of_integer? {memory : Memory} (e : Tree) {z : Int} (h : e.integer? memory = some z) :
    e.value memory = pure (.ofInt z) := by
  match e with
  | .signed signs t =>
    obtain ⟨a, ha, rfl⟩ := Option.map_eq_some_iff.1 h
    simp only [Tree.value, t.value_of_integer? ha, pure_bind, Sign.foldr_apply_ofInt]
  | .sum e o t =>
    obtain ⟨a, ha, h⟩ := Option.bind_eq_some_iff.1 h
    obtain ⟨b, hb, h⟩ := Option.bind_eq_some_iff.1 h
    cases h
    simp only [Tree.value, e.value_of_integer? ha, t.value_of_integer? hb, pure_bind, Sign.combine_ofInt]

theorem Term.value_of_integer? {memory : Memory} (t : Term) {z : Int} (h : t.integer? memory = some z) :
    t.value memory = pure (.ofInt z) := by
  match t with
  | .factor f => exact f.value_of_integer? h
  | .product t .times f =>
    obtain ⟨a, ha, h⟩ := Option.bind_eq_some_iff.1 h
    obtain ⟨b, hb, h⟩ := Option.bind_eq_some_iff.1 h
    cases h
    simp only [Term.value, t.value_of_integer? ha, f.value_of_integer? hb, pure_bind, Scaling.combine_ofInt,
      liftExcept_ok]
  | .product _ .divide _ => cases h

theorem Factor.value_of_integer? {memory : Memory} (f : Factor) {z : Int} (h : f.integer? memory = some z) :
    f.value memory = pure (.ofInt z) := by
  match f with
  | .number n =>
    cases h
    rw [Factor.value, Int16.ofInt_eq_ofNat]
  | .letter v =>
    obtain ⟨a, ha, rfl⟩ := Option.map_eq_some_iff.1 h
    rw [Factor.value, Int16.ofInt_toInt]
    cases hread : memory.read v.1 with
    | error e =>
      rw [hread] at ha
      cases ha
    | ok b =>
      rw [hread] at ha
      cases ha
      rfl
  | .call _ _ => cases h
  | .group e => exact e.value_of_integer? h

end

/-- Among the tokens there is neither a division nor the name of a function, and the variables that they name
have values. -/
structure Plain (memory : Memory) (ts : List Token) : Prop where
  divide : Token.op .divide ∉ ts
  call : ∀ f : Function, Token.word f.name ∉ ts
  set : ∀ name : Char, Token.word (String.singleton name) ∈ ts → ∃ v, memory.read name = .ok v

theorem Plain.mono {memory : Memory} {ts us : List Token} (h : Plain memory ts) (hus : us ⊆ ts) :
    Plain memory us :=
  ⟨fun hmem => h.divide (hus hmem), fun f hmem => h.call f (hus hmem),
    fun name hmem => h.set name (hus hmem)⟩

mutual

theorem Tree.exists_integer? {memory : Memory} (e : Tree) (h : Plain memory e.tokens) :
    ∃ z, e.integer? memory = some z := by
  match e with
  | .signed signs t =>
    obtain ⟨a, ha⟩ := t.exists_integer? (h.mono (List.subset_append_right _ _))
    exact ⟨_, by rw [Tree.integer?, ha, Option.map_some]⟩
  | .sum e o t =>
    obtain ⟨a, ha⟩ := e.exists_integer? (h.mono (List.subset_append_left _ _))
    obtain ⟨b, hb⟩ := t.exists_integer?
      (h.mono fun _ hmem => List.mem_append_right _ (List.mem_cons_of_mem _ hmem))
    exact ⟨_, by rw [Tree.integer?, ha, hb]; rfl⟩

theorem Term.exists_integer? {memory : Memory} (t : Term) (h : Plain memory t.tokens) :
    ∃ z, t.integer? memory = some z := by
  match t with
  | .factor f => exact f.exists_integer? h
  | .product t .times f =>
    obtain ⟨a, ha⟩ := t.exists_integer? (h.mono (List.subset_append_left _ _))
    obtain ⟨b, hb⟩ := f.exists_integer?
      (h.mono fun _ hmem => List.mem_append_right _ (List.mem_cons_of_mem _ hmem))
    exact ⟨_, by rw [Term.integer?, ha, hb]; rfl⟩
  | .product t .divide f => exact absurd (List.mem_append_right _ List.mem_cons_self) h.divide

theorem Factor.exists_integer? {memory : Memory} (f : Factor) (h : Plain memory f.tokens) :
    ∃ z, f.integer? memory = some z := by
  match f with
  | .number n => exact ⟨_, rfl⟩
  | .letter v =>
    obtain ⟨b, hb⟩ := h.set v.1 List.mem_cons_self
    exact ⟨b.toInt, by rw [Factor.integer?, hb]; rfl⟩
  | .call f e => exact absurd List.mem_cons_self (h.call f)
  | .group e =>
    exact e.exists_integer? (h.mono fun _ hmem => List.mem_cons_of_mem _ (List.mem_append_left _ hmem))

end

/-- An expression without division and `RND` whose variables have values is evaluated without fail, and draws no
random number. The result is the one word of 16 bits that agrees with the exact value modulo `2 ^ 16`. -/
theorem evaluate_exact {text : List Char} {ts span : List Token} {t : Token} (hlex : lex text = .ok ts)
    (hspan : span <:+: ts) (hparse : parse span = .ok t) (hdivide : Token.op .divide ∉ span)
    (hcall : Token.word "RND" ∉ span) {memory : Memory}
    (hset : ∀ name : Char, Token.word (String.singleton name) ∈ span → ∃ v, memory.read name = .ok v) :
    ∃ e : Tree, (∀ e' : Tree, e'.tokens = span ↔ e' = e) ∧ ∃ z : Int, e.integer? memory = some z ∧
      ∃ v : Int16, (∀ g, evaluate memory t g = .ok v g) ∧ ∀ w : Int16, w.toInt ≡ z [ZMOD 2 ^ 16] ↔ w = v := by
  have hlexeme : ∀ u ∈ span, u.IsLexeme := fun u hu => isLexeme_of_lex hlex u (hspan.subset hu)
  obtain ⟨e, rfl, rfl⟩ := exists_tree_of_parse hlexeme hparse
  have hcalls (f : Function) : Token.word f.name ∉ e.tokens := by
    cases f
    exact hcall
  obtain ⟨z, hz⟩ := e.exists_integer? ⟨hdivide, hcalls, hset⟩
  refine ⟨e, fun e' => Tree.tokens_injective.eq_iff, z, hz, .ofInt z, fun g => ?_, fun w => toInt_modEq_iff⟩
  rw [e.evaluate_flat memory, e.value_of_integer? hz]
  rfl

/-- The tokens of `--A*(-70000+B)-123456789012`. -/
def longhand : List Token :=
  [.op .minus, .op .minus, .word "A", .op .times, .lparen, .op .minus, .number "70000", .op .plus, .word "B",
    .rparen, .op .minus, .number "123456789012"]

/-- The least word in `A`, seven in `B`. -/
def extremes : Memory :=
  ⟨Vector.ofFn fun i => if i = 0 then some (-32768) else if i = 1 then some 7 else none⟩

theorem evaluate_exact_longhand :
    lex "--A*(-70000+B)-123456789012".toList = .ok longhand ∧ parse longhand = .ok (.expression longhand) ∧
      ∃ e : Tree, e.tokens = longhand ∧ ∃ z : Int, e.integer? extremes = some z ∧
        ∃ v : Int16, (∀ g, evaluate extremes (.expression longhand) g = .ok v g) ∧
          ∀ w : Int16, w.toInt ≡ z [ZMOD 2 ^ 16] ↔ w = v := by
  have hlex : lex "--A*(-70000+B)-123456789012".toList = .ok longhand := by decide +kernel
  have hparse : parse longhand = .ok (.expression longhand) := by decide +kernel
  have hset (name : Char) (h : Token.word (String.singleton name) ∈ longhand) :
      ∃ v, extremes.read name = .ok v := by
    have hname : name = 'A' ∨ name = 'B' := by
      simpa [longhand, ← String.toList_inj] using h
    rcases hname with rfl | rfl
    · exact ⟨-32768, by decide +kernel⟩
    · exact ⟨7, by decide +kernel⟩
  obtain ⟨e, he, hrest⟩ := evaluate_exact hlex (List.infix_refl _) hparse (by decide +kernel)
    (by decide +kernel) hset
  exact ⟨hlex, hparse, e, (he e).2 rfl, hrest⟩

end LineBasic.Expression
