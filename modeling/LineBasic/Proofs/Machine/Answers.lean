import LineBasic.Proofs.Machine.Fault
import LineBasic.Proofs.Machine.Input

/-!
# Answers on one line or on many

An `INPUT` asks again as long as it lacks values, and what it has got so far is kept in the variables and
in a count. So it does not matter how the values are divided into lines, as long as only the last line
completes them: each line meets one prompt, and in the end the machine is the same (`reply_divided`). The
values of each line wait in a queue, from which the next step takes them (`step_midway_of_lt`); what the
last line holds beyond the variables stays there (`step_midway_of_le`).
-/
namespace LineBasic

/-! ## Integers as they are typed -/

namespace Expression

/-- An integer in decimal notation, with or without a sign. -/
structure Literal where
  sign : Option Sign
  numeral : Numeral

namespace Literal

def text (x : Literal) : List Char :=
  ((x.sign.map (·.operator.render.toList)).getD []) ++ x.numeral.1.toList

def value (x : Literal) : Int :=
  if x.sign = some .minus then -natValue x.numeral else natValue x.numeral

/-- The value as a variable holds it, modulo `2 ^ 16`. -/
def wrapped (x : Literal) : Int16 :=
  .ofInt x.value

def tree (x : Literal) : Tree :=
  .signed x.sign.toList (.factor (.number x.numeral))

theorem lex_text (x : Literal) {cs : List Char} {ts : List Token} (hb : Breaks cs) (h : lex cs = .ok ts) :
    lex (x.text ++ cs) = .ok (x.tree.tokens ++ ts) := by
  have hnumber : lex (x.numeral.1.toList ++ cs) = .ok (.number x.numeral.1 :: ts) :=
    lex_lexeme x.numeral.2 (Token.endsAt_number hb) h
  rw [text, List.append_assoc]
  cases hs : x.sign with
  | none => simpa [tree, hs, Tree.tokens, signTokens, Term.tokens, Factor.tokens] using hnumber
  | some s =>
    have hop : (Token.op s.operator).EndsAt (x.numeral.1.toList ++ cs) :=
      Token.endsAt_of_isArithmetic s.isArithmetic_operator _
    have hsign : lex (s.operator.render.toList ++ (x.numeral.1.toList ++ cs)) =
        .ok (.op s.operator :: .number x.numeral.1 :: ts) :=
      lex_lexeme (t := .op s.operator) trivial hop hnumber
    simpa [tree, hs, Tree.tokens, signTokens, Term.tokens, Factor.tokens] using hsign

theorem evaluate_tree (x : Literal) (memory : Memory) (g : Random.Generator) :
    evaluate memory (.expression x.tree.flat) g = .ok x.wrapped g := by
  have hvalue : x.sign.toList.foldr Sign.apply (.ofNat (natValue x.numeral)) = x.wrapped := by
    unfold wrapped value
    cases x.sign with
    | none => simp [Int16.ofInt_eq_ofNat]
    | some s =>
      cases s with
      | plus => simp [Sign.apply, Int16.ofInt_eq_ofNat]
      | minus => simp [Sign.apply_eq, Int16.ofInt_neg, Int16.ofInt_eq_ofNat]
  rw [Tree.evaluate_flat, ← hvalue]
  rfl

end Literal

end Expression

open Expression (Literal)

/-! ## Lines of answers -/

namespace Expression

variable {line ts rest : List Token} {e : Token}

theorem readList_of_comma (h : read ts = .ok (e, .comma :: rest)) :
    readList line ts = (e :: ·) <$> readList line rest := by
  rw [readList]
  split <;> rename_i heq <;> cases h.symm.trans heq
  · rfl
  · next hn _ => exact (hn rfl).elim

theorem readList_of_last (h : read ts = .ok (e, [])) : readList line ts = .ok [e] := by
  rw [readList]
  split <;> rename_i heq <;> cases h.symm.trans heq
  rfl

end Expression

/-- An integer with the spaces around it. -/
structure Figure where
  lead : List Char
  literal : Literal
  trail : List Char
  lead_space : ∀ c ∈ lead, isSpace c = true
  trail_space : ∀ c ∈ trail, isSpace c = true

namespace Figure

def text (e : Figure) : List Char :=
  e.lead ++ (e.literal.text ++ e.trail)

/-- The text of a line with commas between its figures. -/
def line (es : List Figure) : String :=
  String.ofList ([','].intercalate (es.map text))

def values (es : List Figure) : List Int16 :=
  es.map (·.literal.wrapped)

def token (e : Figure) : Token :=
  .expression e.literal.tree.flat

theorem lex_text (e : Figure) {cs : List Char} {ts : List Token} (hb : Breaks cs) (h : lex cs = .ok ts) :
    lex (e.text ++ cs) = .ok (e.literal.tree.tokens ++ ts) := by
  have hbreaks : Breaks (e.trail ++ cs) := by
    cases htrail : e.trail with
    | nil => exact hb
    | cons c r => exact breaks_cons (isDelimiter_of_isSpace (e.trail_space c (by simp [htrail]))) _
  rw [text, List.append_assoc, List.append_assoc, lex_append_of_isSpace e.lead_space]
  refine e.literal.lex_text hbreaks ?_
  rw [lex_append_of_isSpace e.trail_space, h]

/-- A line is lexed into its integers, with commas between them. -/
theorem lex_line {es : List Figure} (hne : es ≠ []) :
    ∃ ts, lex ([','].intercalate (es.map text)) = .ok ts ∧
      ∀ line, Expression.readList line ts = .ok (es.map token) := by
  induction es with
  | nil => exact absurd rfl hne
  | cons e es ih =>
    have hcompletes := e.literal.tree.completes .done
    rw [List.append_nil, List.append_nil] at hcompletes
    cases es with
    | nil =>
      have hlex := e.lex_text breaks_nil (by rw [lex])
      refine ⟨e.literal.tree.tokens ++ [], by simpa using hlex, fun line => ?_⟩
      have hread := Expression.read_of_completes hcompletes Expression.stops_nil
      rw [Expression.readList_of_last hread]
      rfl
    | cons e' es =>
      obtain ⟨ts, hlex, hlist⟩ := ih (by simp)
      have hcomma : lex (',' :: [','].intercalate ((e' :: es).map text)) = .ok (.comma :: ts) :=
        lex_lexeme (t := .comma) trivial trivial hlex
      refine ⟨e.literal.tree.tokens ++ .comma :: ts, ?_, fun line => ?_⟩
      · have := e.lex_text (breaks_cons (by decide) _) hcomma
        simpa [List.intercalate_cons_cons] using this
      · have hread := Expression.read_of_completes hcompletes
          (Expression.stops_cons (t := .comma) (fun _ => rfl) ts)
        rw [Expression.readList_of_comma hread, hlist line]
        rfl

end Figure

namespace Machine

theorem values_token (es : List Figure) (m : Machine) :
    values (es.map Figure.token) m = .ok (Figure.values es) m := by
  induction es with
  | nil => rfl
  | cons e es ih =>
    have hvalue : value e.token m = .ok e.literal.wrapped m := by
      rw [value, Figure.token, e.literal.evaluate_tree]
    rw [List.map_cons, values, bind_of_ok hvalue, bind_of_ok ih]
    rfl

/-- The values of a line are queued, and the machine goes on. -/
theorem takeAnswer_line {es : List Figure} (hne : es ≠ []) (m : Machine) :
    m.takeAnswer (Figure.line es) = { m with inputs := m.inputs ++ Figure.values es, status := .running } := by
  obtain ⟨ts, hlex, hlist⟩ := Figure.lex_line hne
  have hanswer : answerValues (Figure.line es) m = .ok (Figure.values es) m := by
    rw [answerValues, Figure.line, String.toList_ofList, hlex]
    dsimp only [Except.bind]
    rw [Expression.parseList, hlist]
    exact values_token es m
  rw [takeAnswer, hanswer]

end Machine

/-! ## Values given to variables -/

namespace Memory

/-- Gives values to variables, one after the other. -/
def given (memory : Memory) (log : List (Token × Int16)) : Memory :=
  log.foldl (fun memory g => (memory.store g).toOption.getD memory) memory

/-- The value that a variable is given last. -/
def lastGiven (log : List (Token × Int16)) (name : Char) : Option Int16 :=
  (log.reverse.find? (·.1.varName? = some name)).map Prod.snd

theorem given_append (memory : Memory) (a b : List (Token × Int16)) :
    memory.given (a ++ b) = (memory.given a).given b :=
  List.foldl_append

/-- Values that come in two parts are given in two parts. -/
theorem given_zip {memory : Memory} {vs : List Token} {taken : List Int16} (hle : taken.length ≤ vs.length)
    {queue : List Int16} :
    (memory.given (vs.zip taken)).given ((vs.drop taken.length).zip queue) =
      memory.given (vs.zip (taken ++ queue)) := by
  have hzip : vs.zip (taken ++ queue) = vs.zip taken ++ (vs.drop taken.length).zip queue := by
    induction taken generalizing vs with
    | nil => simp
    | cons v taken ih =>
      cases vs with
      | nil => cases hle
      | cons t vs => simpa using ih (Nat.le_of_succ_le_succ hle)
  rw [hzip, given_append]

theorem store_eq_given {t : Token} (ht : t.varName?.isSome = true) (memory : Memory) (v : Int16) :
    memory.store (t, v) = .ok (memory.given [(t, v)]) := by
  obtain ⟨name, hname⟩ := Option.isSome_iff_exists.1 ht
  obtain ⟨memory', hwrite⟩ := Machine.write_eq_ok (Machine.isUpper_of_varName? hname) memory v
  have hstore : memory.store (t, v) = .ok memory' := by
    rw [store]
    dsimp only
    rw [hname, ← hwrite]
  rw [given, List.foldl_cons, hstore]
  rfl

theorem eq_of_cell? {a b : Char} {i : Fin 26} (ha : cell? a = some i) (hb : cell? b = some i) : a = b := by
  unfold cell? at ha hb
  split at ha
  · split at hb
    · cases ha
      have hval : b.toNat - 65 = a.toNat - 65 := congrArg Fin.val (Option.some.inj hb)
      exact Char.toNat_inj.1 (by omega)
    · cases hb
  · cases ha

theorem read_write_of_ne {memory memory' : Memory} {name other : Char} {v : Int16}
    (h : memory.write name v = .ok memory') (hne : other ≠ name) : memory'.read other = memory.read other := by
  unfold write at h
  split at h
  · cases h
  next i hi =>
    cases h
    unfold read
    cases hj : cell? other with
    | none => rfl
    | some j =>
      have hij : i ≠ j := by
        rintro rfl
        exact hne (eq_of_cell? hj hi)
      have hcell : (memory.cells.set i (some v)).get j = memory.cells.get j :=
        Vector.getElem_set_ne i.2 j.2 (fun h => hij (Fin.ext h))
      dsimp only
      rw [hcell]

theorem read_store (memory : Memory) (g : Token × Int16) (name : Char) :
    ((memory.store g).toOption.getD memory).read name =
      if g.1.varName? = some name then .ok g.2 else memory.read name := by
  unfold store
  cases hg : g.1.varName? with
  | none => rfl
  | some other =>
    obtain ⟨memory', hwrite⟩ := Machine.write_eq_ok (Machine.isUpper_of_varName? hg) memory g.2
    dsimp only
    rw [hwrite]
    by_cases hname : other = name
    · subst hname
      rw [if_pos rfl]
      exact read_write hwrite
    · rw [if_neg (by simpa using hname)]
      exact read_write_of_ne hwrite (Ne.symm hname)

theorem lastGiven_cons (g : Token × Int16) (log : List (Token × Int16)) (name : Char) :
    lastGiven (g :: log) name =
      (lastGiven log name).or (if g.1.varName? = some name then some g.2 else none) := by
  unfold lastGiven
  rw [List.reverse_cons, List.find?_append]
  cases log.reverse.find? (·.1.varName? = some name) with
  | some g' => rfl
  | none => by_cases hg : g.1.varName? = some name <;> simp [hg]

/-- Of a variable that is given several values, the last counts. -/
theorem read_given (memory : Memory) (log : List (Token × Int16)) (name : Char) :
    (memory.given log).read name = (lastGiven log name).elim (memory.read name) .ok := by
  induction log generalizing memory with
  | nil => rfl
  | cons g log ih =>
    rw [given, List.foldl_cons, ← given, ih, lastGiven_cons, read_store]
    cases lastGiven log name with
    | some v => rfl
    | none => split <;> rfl

end Memory

namespace Machine

/-! ## Values taken from the queue -/

section

variable {ts : List Token} (hts : ∀ t ∈ ts, t.varName?.isSome = true) (m : Machine)

include hts

/-- Variables are filled as long as there are values. If there is one for each, the others stay. -/
theorem fill_eq :
    fill ts m =
      if m.inputs.length < ts.length then
        .ok .wait
          { m with
            inputs := []
            memory := m.memory.given (ts.zip m.inputs)
            filled := m.filled + m.inputs.length }
      else
        .ok .next
          { m with
            inputs := m.inputs.drop ts.length
            memory := m.memory.given (ts.zip m.inputs)
            filled := 0 } := by
  induction ts generalizing m with
  | nil => rfl
  | cons t ts ih =>
    obtain ⟨ht, hts⟩ := List.forall_mem_cons.1 hts
    cases hin : m.inputs with
    | nil =>
      rw [fill_of_nil hin, if_pos (by simp)]
      obtain ⟨⟩ := m
      cases hin
      rfl
    | cons v inputs =>
      rw [fill_of_cons hin, Memory.store_eq_given ht]
      dsimp only
      rw [ih hts]
      simp only [List.zip_cons_cons, List.length_cons, ← Memory.given_append, List.singleton_append,
        List.drop_succ_cons, Nat.add_lt_add_iff_right]
      rw [Nat.add_assoc, Nat.add_comm 1]

end

/-! ## An `INPUT` from its first prompt to its last -/

/-- The machine is about to execute an `INPUT` of the variables `vs` on the line `label`, from its start and
without values. -/
structure Inquires (m : Machine) (vs : List Token) (label : Option Label) : Prop where
  running : m.status = .running
  upcoming : m.upcoming? = some ⟨.input, vs, label⟩
  named : ∀ v ∈ vs, v.varName?.isSome = true
  filled : m.filled = 0
  inputs : m.inputs = []

/-- The machine when values have gone to the first of the variables, with more values in the queue. -/
def midway (m : Machine) (vs : List Token) (taken queue : List Int16) : Machine :=
  { m with memory := m.memory.given (vs.zip taken), filled := taken.length, inputs := queue }

/-- The machine when these values have come and the variables are filled. -/
def finish (m : Machine) (vs : List Token) (label : Option Label) (values : List Int16) : Machine :=
  { m with
    memory := m.memory.given (vs.zip values)
    filled := 0
    inputs := values.drop vs.length }.follow label .next

/-- The machine asks for an answer, once its events are fetched. -/
def prompts (m : Machine) : Bool :=
  (untilEvent 0 { m with events := [] }).1 = .input inputPrompt

/-- Answers one prompt after the other, each of which has to come after a single step. -/
def reply (m : Machine) : List String → Option Machine
  | [] => some m
  | text :: texts => if m.step.prompts then (m.step.submit text).2.reply texts else none

theorem prompts_eq (m : Machine) : m.prompts = m.isWaiting := by
  unfold prompts untilEvent fetch? isWaiting
  cases m.status <;> simp

section

variable {m : Machine} {vs : List Token} {label : Option Label} (h : m.Inquires vs label)

include h

theorem Inquires.midway_nil : m.midway vs [] [] = m := by
  have hf := h.filled
  have hin := h.inputs
  obtain ⟨⟩ := m
  cases hf
  cases hin
  rw [midway, List.zip_nil_right]
  rfl

theorem Inquires.step_midway (taken queue : List Int16) :
    (m.midway vs taken queue).step =
      conclude label (fill (vs.drop taken.length) (m.midway vs taken queue)) := by
  have hrun : (m.midway vs taken queue).isRunning = true := by
    simp [isRunning, midway, h.running]
  rw [step_eq_of_exec hrun h.upcoming]
  rfl

/-- While values are lacking, those in the queue are taken and the machine waits. -/
theorem Inquires.step_midway_of_lt {taken queue : List Int16} (hlt : taken.length + queue.length < vs.length) :
    (m.midway vs taken queue).step = { m.midway vs (taken ++ queue) [] with status := .waiting } := by
  have hnamed : ∀ v ∈ vs.drop taken.length, v.varName?.isSome = true :=
    fun v hv => h.named v (List.mem_of_mem_drop hv)
  have hqueue : (m.midway vs taken queue).inputs.length < (vs.drop taken.length).length := by
    rw [List.length_drop]
    exact Nat.lt_sub_iff_add_lt'.2 hlt
  rw [h.step_midway, fill_eq hnamed, if_pos hqueue]
  simp only [midway, conclude, follow, Memory.given_zip (Nat.le_of_lt (Nat.lt_of_le_of_lt
    (Nat.le_add_right _ _) hlt)), List.length_append]

/-- When they are all there, the machine goes on. -/
theorem Inquires.step_midway_of_le {taken queue : List Int16} (hle : taken.length ≤ vs.length)
    (henough : vs.length ≤ taken.length + queue.length) :
    (m.midway vs taken queue).step = m.finish vs label (taken ++ queue) := by
  have hnamed : ∀ v ∈ vs.drop taken.length, v.varName?.isSome = true :=
    fun v hv => h.named v (List.mem_of_mem_drop hv)
  have hqueue : (vs.drop taken.length).length ≤ (m.midway vs taken queue).inputs.length := by
    rw [List.length_drop]
    exact Nat.sub_le_iff_le_add'.2 henough
  have hrest : (taken ++ queue).drop vs.length = queue.drop (vs.length - taken.length) := by
    rw [List.drop_append, List.drop_eq_nil_of_le hle, List.nil_append]
  rw [h.step_midway, fill_eq hnamed, if_neg (Nat.not_lt.2 hqueue)]
  simp only [midway, conclude, finish, Memory.given_zip hle, List.length_drop, hrest]

/-- A line that answers a prompt is queued. -/
theorem Inquires.submit_line {es : List Figure} (hne : es ≠ []) (taken : List Int16) :
    (({ m.midway vs taken [] with status := .waiting } : Machine).submit (Figure.line es)).2 =
      m.midway vs taken (Figure.values es) := by
  have hwaiting : ({ m.midway vs taken [] with status := .waiting } : Machine).isWaiting = true := rfl
  have hrun := h.running
  rw [submit_of_isWaiting hwaiting, takeAnswer_line hne]
  obtain ⟨⟩ := m
  cases hrun
  rfl

/-- As long as only the last line completes the values, each line is answered to a prompt. -/
theorem Inquires.reply_midway (taken queue : List Int16) {lines : List (List Figure)} (hne : ∀ es ∈ lines, es ≠ [])
    (hlt : lines ≠ [] → taken.length + queue.length + lines.dropLast.flatten.length < vs.length)
    (hle : taken.length ≤ vs.length) :
    ∃ taken' queue', (m.midway vs taken queue).reply (lines.map Figure.line) =
        some (m.midway vs taken' queue') ∧ taken'.length ≤ vs.length ∧
      taken' ++ queue' = taken ++ queue ++ Figure.values lines.flatten := by
  -- a line is queued at its prompt and taken at the next, so the values of one line are always on the way
  induction lines generalizing taken queue with
  | nil => exact ⟨taken, queue, rfl, hle, by simp [Figure.values]⟩
  | cons es lines ih =>
    obtain ⟨hes, hlines⟩ := List.forall_mem_cons.1 hne
    have hlt := hlt (by simp)
    have hwaits : taken.length + queue.length < vs.length := by omega
    have hstep := h.step_midway_of_lt hwaits
    have hprompts : (m.midway vs taken queue).step.prompts = true := by
      rw [prompts_eq, hstep]
      rfl
    have hmore : lines ≠ [] →
        (taken ++ queue).length + (Figure.values es).length + lines.dropLast.flatten.length < vs.length := by
      intro hnil
      rw [List.dropLast_cons_of_ne_nil hnil, List.flatten_cons, List.length_append] at hlt
      rw [List.length_append, Figure.values, List.length_map]
      omega
    have htaken : (taken ++ queue).length ≤ vs.length := by
      rw [List.length_append]
      omega
    obtain ⟨taken', queue', hreply, hle', hall⟩ := ih _ _ hlines hmore htaken
    refine ⟨taken', queue', ?_, hle', ?_⟩
    · rw [List.map_cons, reply, if_pos hprompts, hstep, h.submit_line hes, hreply]
    · rw [hall, List.flatten_cons]
      simp [Figure.values]

end

/-- Going on to the next line keeps variables and values. -/
theorem finish_fields (m : Machine) (vs : List Token) (label : Option Label) (values : List Int16) :
    (m.finish vs label values).memory = m.memory.given (vs.zip values) ∧
      (m.finish vs label values).inputs = values.drop vs.length ∧
      (m.finish vs label values).filled = 0 := by
  unfold finish follow moveTo
  dsimp only
  split
  · exact ⟨rfl, rfl, rfl⟩
  · split <;> exact ⟨rfl, rfl, rfl⟩

theorem isWaiting_finish {m : Machine} (h : m.status = .running) (vs : List Token) (label : Option Label)
    (values : List Int16) : (m.finish vs label values).isWaiting = false := by
  unfold finish follow moveTo isWaiting
  dsimp only
  split
  · rfl
  · split
    · simp [h]
    · rfl

/-- An `INPUT` of integers ends in the same way, however they are divided into lines, if only the last line
completes them. Each line answers one prompt, and no other prompt comes. Each variable has its value modulo
`2 ^ 16`, the last one if it is named more than once, and the values left over are queued. -/
theorem reply_divided {m : Machine} {vs : List Token} {label : Option Label} (h : m.Inquires vs label)
    (xs : List Literal) (hxs : vs.length ≤ xs.length) :
    ∃ final, final = m.finish vs label (xs.map Literal.wrapped) ∧
      (∀ name, final.memory.read name =
        (Memory.lastGiven (vs.zip (xs.map Literal.wrapped)) name).elim (m.memory.read name) .ok) ∧
      final.inputs = (xs.drop vs.length).map Literal.wrapped ∧ final.filled = 0 ∧
      ∀ lines : List (List Figure), lines.flatten.map Figure.literal = xs → (∀ es ∈ lines, es ≠ []) →
        lines.dropLast.flatten.length < vs.length →
        ∃ n, m.reply (lines.map Figure.line) = some n ∧ n.step.prompts = false ∧ n.step = final := by
  obtain ⟨hmem, hin, hf⟩ := finish_fields m vs label (xs.map Literal.wrapped)
  refine ⟨_, rfl, fun name => ?_, ?_, hf, fun lines hxs' hne hlt => ?_⟩
  · rw [hmem, Memory.read_given]
  · rw [hin, List.map_drop]
  · obtain ⟨taken, queue, hreply, hle, hall⟩ := h.reply_midway [] [] hne
      (fun _ => by simpa using hlt) (Nat.zero_le _)
    rw [h.midway_nil] at hreply
    have hvalues : taken ++ queue = xs.map Literal.wrapped := by
      rw [hall, ← hxs', List.map_map]
      rfl
    have henough : vs.length ≤ taken.length + queue.length := by
      rw [← List.length_append, hvalues, List.length_map]
      exact hxs
    have hstep := h.step_midway_of_le hle henough
    rw [hvalues] at hstep
    refine ⟨_, hreply, ?_, hstep⟩
    rw [prompts_eq, hstep, isWaiting_finish h.running]

/-- About to ask for `A`, `B` and `A` again. -/
def inquiring : Machine :=
  (((ofSeed 1).submit "10 INPUT A, B, A").2.submit "20 END").2.start

def one : Figure := ⟨[], ⟨none, "1", by decide, List.all_eq_true.1 rfl⟩, [], by simp, by simp⟩

def minusThree : Figure :=
  ⟨[' '], ⟨some .minus, "3", by decide, List.all_eq_true.1 rfl⟩, [], List.forall_mem_singleton.2 rfl, by simp⟩

def seventyThousand : Figure :=
  ⟨[], ⟨some .plus, "70000", by decide, List.all_eq_true.1 rfl⟩, ['\t'], by simp, List.forall_mem_singleton.2 rfl⟩

theorem reply_divided_inquiring :
    inquiring.Inquires [.word "A", .word "B", .word "A"] (some 10) ∧
      [one, minusThree].length < 3 ∧ Figure.line [one, minusThree] = "1, -3" ∧
      Figure.line [seventyThousand, one] = "+70000\t,1" ∧
      ∃ n n', inquiring.reply ["1, -3", "+70000\t,1"] = some n ∧
        inquiring.reply ["1, -3,+70000\t,1"] = some n' ∧ n.step = n'.step ∧ n.step.inputs = [1] ∧
        n.step.memory.read 'A' = .ok 4464 ∧ n.step.memory.read 'B' = .ok (-3) := by
  have h : inquiring.Inquires [.word "A", .word "B", .word "A"] (some 10) :=
    ⟨by decide +kernel, by decide +kernel, by decide +kernel, by decide +kernel, by decide +kernel⟩
  obtain ⟨final, -, hread, hin, -, hlines⟩ := reply_divided h
    [one.literal, minusThree.literal, seventyThousand.literal, one.literal] (by decide)
  have hfirst : Figure.line [one, minusThree] = "1, -3" := by decide +kernel
  have hsecond : Figure.line [seventyThousand, one] = "+70000\t,1" := by decide +kernel
  have hall : Figure.line [one, minusThree, seventyThousand, one] = "1, -3,+70000\t,1" := by decide +kernel
  obtain ⟨n, hn, -, hstep⟩ := hlines [[one, minusThree], [seventyThousand, one]] rfl (by simp) (by decide)
  obtain ⟨n', hn', -, hstep'⟩ := hlines [[one, minusThree, seventyThousand, one]] rfl (by simp) (by decide)
  simp only [List.map_cons, List.map_nil, hfirst, hsecond, hall] at hn hn'
  refine ⟨h, by decide, hfirst, hsecond, n, n', hn, hn', hstep.trans hstep'.symm, ?_⟩
  rw [hstep, hin, hread, hread]
  decide +kernel

end Machine

end LineBasic
