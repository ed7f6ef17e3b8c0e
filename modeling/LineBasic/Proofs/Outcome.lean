import LineBasic.Error

/-!
# Outcomes of actions

An action on a state has a value or fails with an error, and leaves a state in both cases.
-/
namespace LineBasic

variable {σ α β : Type} {x : EStateM Error σ α} {f : α → EStateM Error σ β} {s t : σ}

/-! ## Sequences -/

theorem bind_of_ok {a : α} (h : x s = .ok a t) : (x >>= f) s = f a t := by
  show EStateM.bind x f s = _
  rw [EStateM.bind, h]

theorem bind_of_error {e : Error} (h : x s = .error e t) : (x >>= f) s = .error e t := by
  show EStateM.bind x f s = _
  rw [EStateM.bind, h]

/-! ## Errors -/

/-- Of every error with which the action fails, `P` holds. -/
def Fails (P : Error → Prop) (x : EStateM Error σ α) : Prop :=
  ∀ s e s', x s = .error e s' → P e

namespace Fails

variable {P Q : Error → Prop}

theorem pure (a : α) : Fails P (pure a : EStateM Error σ α) := by
  intro s e s' h
  cases h

theorem throw {e : Error} (h : P e) : Fails P (throw e : EStateM Error σ α) := by
  intro s e' s' he
  cases he
  exact h

theorem modifyGet (f : σ → α × σ) : Fails P (modifyGet f : EStateM Error σ α) := by
  intro s e s' h
  cases h

theorem bind (hx : Fails P x) (hf : ∀ a, Fails P (f a)) : Fails P (x >>= f) := by
  intro s e s' h
  cases hxs : x s with
  | ok a t =>
    rw [bind_of_ok hxs] at h
    exact hf a t e s' h
  | error e' t =>
    rw [bind_of_error hxs] at h
    cases h
    exact hx s e s' hxs

theorem liftExcept {y : Except Error α} (h : ∀ e, y = .error e → P e) :
    Fails P (liftExcept y : EStateM Error σ α) := by
  cases y with
  | ok a => exact .pure a
  | error e => exact .throw (h e rfl)

theorem mono (h : Fails P x) (hPQ : ∀ e, P e → Q e) : Fails Q x :=
  fun s e s' he => hPQ e (h s e s' he)

end Fails

/-- The error has one of the codes and this label. -/
def Error.Marked (codes : List Error.Code) (label : Option Label) (e : Error) : Prop :=
  e.code ∈ codes ∧ e.label = label

theorem Error.Cause.marked {c : Error.Cause} {codes : List Error.Code} (h : c.code ∈ codes) :
    c.error.Marked codes none :=
  ⟨h, rfl⟩

theorem Error.Marked.onLine {codes : List Error.Code} {e : Error} (h : e.Marked codes none)
    (label : Option Label) : (e.onLine label).Marked codes label := by
  refine ⟨h.1, ?_⟩
  rw [Error.onLine, h.2]
  rfl

/-- The action fails with none but these codes. -/
def Raises (codes : List Error.Code) (x : EStateM Error σ α) : Prop :=
  ∀ s e s', x s = .error e s' → e.code ∈ codes

namespace Raises

variable {codes : List Error.Code}

theorem pure (a : α) : Raises codes (pure a : EStateM Error σ α) :=
  Fails.pure a

theorem modifyGet (f : σ → α × σ) : Raises codes (modifyGet f : EStateM Error σ α) :=
  Fails.modifyGet f

theorem bind (hx : Raises codes x) (hf : ∀ a, Raises codes (f a)) : Raises codes (x >>= f) :=
  Fails.bind hx hf

/-- An action that cannot fail has no error to speak of. -/
theorem fails {P : Error → Prop} (h : Raises [] x) : Fails P x :=
  Fails.mono h (fun _ he => by cases he)

end Raises

end LineBasic
