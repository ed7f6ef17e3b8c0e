import LineBasic.Machine.Entry
import LineBasic.Proofs.Outcome

/-!
# The actions that statements are made of

A property of actions that survives sequencing and holds for the few basic actions holds for all
parts of a statement. `Basic` lists what has to be shown of it, and `Closed` adds the actions on calls
and events, so that a proof about statements deals with each basic action once.
-/
namespace LineBasic.Machine

variable {α β : Type}

/-- The machine with these events queued in front of its own. -/
def behind (es : List Event) (m : Machine) : Machine :=
  { m with events := es ++ m.events }

theorem get_bind (f : Machine → ExecM α) (m : Machine) : (get >>= f) m = f m m :=
  rfl

structure Basic (P : ∀ {α : Type}, ExecM α → Prop) : Prop where
  pure {α : Type} (a : α) : P (pure a)
  throw {α : Type} (e : Error) : P (throw e : ExecM α)
  bind {α β : Type} {x : ExecM α} {f : α → ExecM β} : P x → (∀ a, P (f a)) → P (x >>= f)
  /-- What is read of the machine does not depend on its events. -/
  get {β : Type} {f : Machine → ExecM β} :
    (∀ m, P (f m)) → (∀ es m, f (m.behind es) = f m) → P (get >>= f)
  value (e : Token) : P (value e)
  setMemory (memory : Memory) : P (modify ({ · with memory }))
  setInputs (inputs : List Int16) : P (modify ({ · with inputs }))
  setFilled (f : Nat → Nat) : P (modify fun m => { m with filled := f m.filled })

structure Closed (P : ∀ {α : Type}, ExecM α → Prop) : Prop extends Basic P where
  setCalls (calls : Stack ReturnPoint) : P (modify ({ · with calls }))
  /-- Nothing but texts is queued. -/
  queue (f : Machine → List Event) :
    (∀ es m, f (m.behind es) = f m) → (∀ m, ∀ e ∈ f m, ∃ text, e = .print text ∨ e = .list text) →
    P (modify fun m => { m with events := m.events ++ f m })

variable {P : ∀ {α : Type}, ExecM α → Prop}

namespace Basic

theorem liftExcept (h : Basic P) (x : Except Error α) : P (liftExcept x : ExecM α) := by
  cases x with
  | ok a => exact h.pure a
  | error e => exact h.throw e

theorem assign (h : Basic P) (t : Token) (v : Int16) : P (assign t v) := by
  unfold Machine.assign
  cases t.varName? with
  | none => exact h.throw _
  | some name =>
    refine h.get (fun m => ?_) (fun es m => rfl)
    exact h.bind (h.liftExcept _) (fun memory => h.setMemory memory)

theorem printed (h : Basic P) (ts : List Token) : P (printed ts) := by
  fun_induction Machine.printed ts with
  | case1 => exact h.pure _
  | case2 text ts ih => exact h.bind ih (fun _ => h.pure _)
  | case3 t ts _ ih => exact h.bind (h.value t) (fun _ => h.bind ih (fun _ => h.pure _))

theorem fill (h : Basic P) (ts : List Token) : P (fill ts) := by
  induction ts with
  | nil => exact h.bind (h.setFilled (fun _ => 0)) (fun _ => h.pure _)
  | cons t ts ih =>
    refine h.get (fun m => ?_) (fun es m => rfl)
    cases m.inputs with
    | nil => exact h.pure _
    | cons v inputs =>
      refine h.bind (h.setInputs inputs) (fun _ => ?_)
      refine h.bind (h.assign t v) (fun _ => ?_)
      exact h.bind (h.setFilled (· + 1)) (fun _ => ih)

theorem destination (h : Basic P) (k : Keyword) (ts : List Token) : P (destination k ts) := by
  unfold Machine.destination
  split
  · refine h.bind (h.value _) (fun label => ?_)
    refine h.get (fun m => ?_) (fun es m => rfl)
    cases m.program.jump? label with
    | none => exact h.throw _
    | some slot => exact h.pure _
  · exact h.throw _

theorem values (h : Basic P) (es : List Token) : P (values es) := by
  induction es with
  | nil => exact h.pure _
  | cons e es ih => exact h.bind (h.value e) (fun _ => h.bind ih (fun _ => h.pure _))

theorem answerValues (h : Basic P) (text : String) : P (answerValues text) := by
  unfold Machine.answerValues
  cases (lex text.toList).bind Expression.parseList with
  | ok es => exact h.values es
  | error e => exact h.throw _

end Basic

namespace Closed

theorem openCall (h : Closed P) : P openCall := by
  refine h.get (fun m => ?_) (fun es m => rfl)
  exact h.bind (h.liftExcept _) (fun calls => h.setCalls calls)

theorem closeCall (h : Closed P) : P closeCall := by
  refine h.get (fun m => ?_) (fun es m => rfl)
  refine h.bind (h.liftExcept _) (fun back => ?_)
  exact h.bind (h.setCalls _) (fun _ => h.pure _)

/-- A statement is made of these actions, unless it is `CLEAR` or leads to it behind `IF`. `Q` may say
less than `P`, so that it holds for `CLEAR` as well. -/
theorem exec (h : Closed P) {Q : ExecM Sequel → Prop} (hQ : ∀ {x : ExecM Sequel}, P x → Q x)
    (hseq : ∀ {α : Type} {x : ExecM α} {f : α → ExecM Sequel}, P x → (∀ a, Q (f a)) → Q (x >>= f))
    (hclear : Q (do modify fun m => { m.forget with program := {} }; return .halt)) (s : Statement) :
    Q (exec s) := by
  fun_induction Machine.exec s with
  | case1 t e => exact hQ (h.bind (h.value e) (fun v => h.bind (h.assign t v) (fun _ => h.pure _)))
  | case2 args =>
    refine hQ (h.bind (h.printed args) (fun text => h.bind ?_ (fun _ => h.pure _)))
    exact h.queue (fun _ => [.print (text ++ "\n")]) (fun es m => rfl) (by simp)
  | case3 args => exact hQ (h.get (fun m => h.fill _) (fun es m => rfl))
  | case4 a o b s _ ih =>
    refine hseq (h.value a) (fun x => hseq (h.value b) (fun y => ?_))
    cases o.holds x y with
    | false => exact hQ (h.pure _)
    | true => exact ih
  | case5 args => exact hQ (h.bind (h.destination _ args) (fun _ => h.pure _))
  | case6 args =>
    exact hQ (h.bind (h.destination _ args) (fun _ => h.bind h.openCall (fun _ => h.pure _)))
  | case7 =>
    refine hQ (h.bind h.closeCall (fun back => ?_))
    cases back <;> exact h.pure _
  | case8 => exact hclear
  | case9 => exact hQ (h.bind (h.queue _ (fun es m => rfl) (by simp)) (fun _ => h.pure _))
  | case14 => exact hQ (h.throw _)
  | case10 | case11 | case12 | case13 => exact hQ (h.pure _)

end Closed

end LineBasic.Machine
