import LineBasic.Machine.Basic

/-!
# Turns of a run

A run goes by turns: in each of them an event comes, or a step is made. A call with a budget takes turns
until there is an event or a step cannot be paid for (`run`). How the calls cut a run into pieces does
not matter: what is heard of any calls is what is heard in some number of turns (`exists_watch_eq`), and
more turns only add to it (`watch_extends`) until the run comes to rest (`watch_eq_of_hasRest`).
-/
namespace LineBasic

/-- The run does not go on by itself after this event. -/
def Event.isRest : Event → Bool
  | .stopped | .input _ => true
  | .running | .print _ | .list _ | .error _ => false

/-- The events say that the run has come to rest. -/
def HasRest (es : List Event) : Prop :=
  ∃ e ∈ es, e.isRest = true

variable {σ τ : Type}

/-! ## Calls -/

/-- What is heard if a call has this outcome and `rest` is heard afterwards: the event and the rest, or
the event alone if the run rests. That the run still goes on is no news. -/
def hear (r : Event × σ) (rest : List Event × σ) : List Event × σ :=
  if r.1.isRest then ([r.1], r.2) else ([r.1].filter (· ≠ .running) ++ rest.1, rest.2)

/-- The events heard of calls with these budgets, up to the first at which the run rests, and the state
after the last of them. -/
def heard (call : Nat → σ → Event × σ) : List Nat → σ → List Event × σ
  | [], s => ([], s)
  | n :: ns, s => hear (call n s) (heard call ns (call n s).2)

theorem hear_running (s : σ) (rest : List Event × σ) : hear (.running, s) rest = rest :=
  rfl

theorem hear_of_isRest {r : Event × σ} (h : r.1.isRest = true) (rest : List Event × σ) :
    hear r rest = ([r.1], r.2) :=
  if_pos h

theorem hear_of_not_isRest {r : Event × σ} (h : ¬ r.1.isRest = true) (rest : List Event × σ) :
    hear r rest = ([r.1].filter (· ≠ .running) ++ rest.1, rest.2) :=
  if_neg h

/-- The state after calls with these budgets. -/
def called (call : Nat → σ → Event × σ) (ns : List Nat) (s : σ) : σ :=
  ns.foldl (fun s n => (call n s).2) s

/-! ## Turns -/

inductive Turn (σ : Type) where
  | event (e : Event) (s : σ)
  | step (s : σ)

namespace Turn

def map (f : σ → τ) : Turn σ → Turn τ
  | event e s => event e (f s)
  | step s => step (f s)

/-- Takes turns until there is an event, with at most so many steps. -/
def run (turn : σ → Turn σ) : (steps : Nat) → σ → Event × σ
  | steps, s =>
    match turn s with
    | event e s' => (e, s')
    | step s' =>
      match steps with
      | 0 => (.running, s)
      | steps + 1 => run turn steps s'

/-- The events heard in so many turns. -/
def watch (turn : σ → Turn σ) : (turns : Nat) → σ → List Event × σ
  | 0, s => ([], s)
  | k + 1, s =>
    match turn s with
    | event e s' => hear (e, s') (watch turn k s')
    | step s' => watch turn k s'

variable {turn : σ → Turn σ} {s s' : σ} {e : Event}

theorem run_of_event (h : turn s = event e s') (n : Nat) : run turn n s = (e, s') := by
  rw [run, h]

theorem run_zero_of_step (h : turn s = step s') : run turn 0 s = (.running, s) := by
  rw [run, h]

theorem run_succ_of_step (h : turn s = step s') (n : Nat) : run turn (n + 1) s = run turn n s' := by
  rw [run, h]

theorem watch_of_event (h : turn s = event e s') (k : Nat) :
    watch turn (k + 1) s = hear (e, s') (watch turn k s') := by
  rw [watch, h]

theorem watch_of_step (h : turn s = step s') (k : Nat) : watch turn (k + 1) s = watch turn k s' := by
  rw [watch, h]

/-- A map between states that respects turns respects calls. -/
theorem run_map {turn' : τ → Turn τ} {f : σ → τ} (hf : ∀ s, turn' (f s) = (turn s).map f) (n : Nat)
    (s : σ) : run turn' n (f s) = ((run turn n s).1, f (run turn n s).2) := by
  induction n generalizing s with
  | zero =>
    cases h : turn s with
    | event e s' => rw [run_of_event h, run_of_event ((hf s).trans (congrArg (map f) h))]
    | step s' => rw [run_zero_of_step h, run_zero_of_step ((hf s).trans (congrArg (map f) h))]
  | succ n ih =>
    cases h : turn s with
    | event e s' => rw [run_of_event h, run_of_event ((hf s).trans (congrArg (map f) h))]
    | step s' =>
      rw [run_succ_of_step h, run_succ_of_step ((hf s).trans (congrArg (map f) h))]
      exact ih s'

/-- The same event comes in both turns, or both are steps, and the states after them are related. -/
inductive Both (R : σ → τ → Prop) : Turn σ → Turn τ → Prop
  | event {s : σ} {t : τ} (e : Event) (related : R s t) : Both R (event e s) (event e t)
  | step {s : σ} {t : τ} (related : R s t) : Both R (step s) (step t)

/-- A relation between states that turns respect is respected by calls. -/
theorem run_both {turn' : τ → Turn τ} {R : σ → τ → Prop} (hR : ∀ s t, R s t → Both R (turn s) (turn' t))
    (n : Nat) {s : σ} {t : τ} (h : R s t) :
    (run turn n s).1 = (run turn' n t).1 ∧ R (run turn n s).2 (run turn' n t).2 := by
  induction n generalizing s t with
  | zero =>
    have hboth := hR s t h
    generalize hs : turn s = x at hboth
    generalize ht : turn' t = y at hboth
    cases hboth with
    | event e h' =>
      rw [run_of_event hs, run_of_event ht]
      exact ⟨rfl, h'⟩
    | step =>
      rw [run_zero_of_step hs, run_zero_of_step ht]
      exact ⟨rfl, h⟩
  | succ n ih =>
    have hboth := hR s t h
    generalize hs : turn s = x at hboth
    generalize ht : turn' t = y at hboth
    cases hboth with
    | event e h' =>
      rw [run_of_event hs, run_of_event ht]
      exact ⟨rfl, h'⟩
    | step h' =>
      rw [run_succ_of_step hs, run_succ_of_step ht]
      exact ih h'

/-! ## What is heard in more turns -/

/-- More turns only add to what is heard. -/
theorem watch_extends (turn : σ → Turn σ) (k j : Nat) (s : σ) :
    (watch turn k s).1 <+: (watch turn (k + j) s).1 := by
  induction k generalizing s with
  | zero => exact List.nil_prefix
  | succ k ih =>
    rw [Nat.succ_add]
    cases h : turn s with
    | event e s' =>
      rw [watch_of_event h, watch_of_event h]
      by_cases he : e.isRest = true
      · rewrite [hear_of_isRest he, hear_of_isRest he]
        exact List.prefix_rfl
      · rw [hear_of_not_isRest he, hear_of_not_isRest he]
        exact (List.prefix_append_right_inj _).2 (ih s')
    | step s' =>
      rw [watch_of_step h, watch_of_step h]
      exact ih s'

/-- Nothing is added once the run has come to rest. -/
theorem watch_eq_of_hasRest {k : Nat} (h : HasRest (watch turn k s).1) (j : Nat) :
    watch turn (k + j) s = watch turn k s := by
  induction k generalizing s with
  | zero =>
    obtain ⟨e, he, -⟩ := h
    cases he
  | succ k ih =>
    rw [Nat.succ_add]
    cases ht : turn s with
    | event e s' =>
      rw [watch_of_event ht] at h ⊢
      rw [watch_of_event ht]
      by_cases he : e.isRest = true
      · rw [hear_of_isRest he, hear_of_isRest he]
      · rw [hear_of_not_isRest he] at h ⊢
        rw [hear_of_not_isRest he]
        -- the event itself is none at which the run rests
        obtain ⟨e', he', hrest⟩ := h
        rcases List.mem_append.1 he' with hmem | hmem
        · cases List.mem_singleton.1 ((List.mem_filter.1 hmem).1)
          exact absurd hrest he
        · rw [ih ⟨e', hmem, hrest⟩]
    | step s' =>
      rw [watch_of_step ht] at h ⊢
      rw [watch_of_step ht]
      exact ih h

/-! ## Calls as turns -/

/-- A call takes some turns, and at least one if it has a budget. -/
theorem exists_turns (turn : σ → Turn σ) (n : Nat) (s : σ) :
    ∃ j, (0 < n → 0 < j) ∧
      ∀ k, watch turn (j + k) s = hear (run turn n s) (watch turn k (run turn n s).2) := by
  induction n generalizing s with
  | zero =>
    cases h : turn s with
    | event e s' =>
      refine ⟨1, by simp, fun k => ?_⟩
      rw [run_of_event h, Nat.add_comm, watch_of_event h]
    | step s' =>
      refine ⟨0, by simp, fun k => ?_⟩
      rw [run_zero_of_step h, Nat.zero_add, hear_running]
  | succ n ih =>
    cases h : turn s with
    | event e s' =>
      refine ⟨1, by simp, fun k => ?_⟩
      rw [run_of_event h, Nat.add_comm, watch_of_event h]
    | step s' =>
      obtain ⟨j, -, hj⟩ := ih s'
      refine ⟨j + 1, by simp, fun k => ?_⟩
      rw [run_succ_of_step h, Nat.add_right_comm, watch_of_step h]
      exact hj k

/-- What is heard of calls is what is heard in some number of turns, no smaller than the number of calls
if they all have a budget. -/
theorem exists_watch_eq (turn : σ → Turn σ) (ns : List Nat) (s : σ) :
    ∃ k, ((∀ n ∈ ns, 0 < n) → ns.length ≤ k) ∧ heard (run turn) ns s = watch turn k s := by
  induction ns generalizing s with
  | nil => exact ⟨0, by simp, rfl⟩
  | cons n ns ih =>
    obtain ⟨j, hpos, hj⟩ := exists_turns turn n s
    obtain ⟨k, hlen, hk⟩ := ih (run turn n s).2
    refine ⟨j + k, fun hall => ?_, ?_⟩
    · obtain ⟨hn, hns⟩ := List.forall_mem_cons.1 hall
      have := hpos hn
      have := hlen hns
      rw [List.length_cons]
      omega
    · rw [heard, hj, hk]

/-! ## Budgets do not matter -/

/-- What is heard of one sequence of calls and what is heard of another agree as far as both go, and are
the same if the run comes to rest in both. -/
structure Consistent (a b : List Event × σ) : Prop where
  comparable : a.1 <+: b.1 ∨ b.1 <+: a.1
  atRest : HasRest a.1 → HasRest b.1 → a = b

theorem watch_consistent (turn : σ → Turn σ) (j k : Nat) (s : σ) :
    Consistent (watch turn j s) (watch turn k s) := by
  rcases Nat.le_total j k with h | h <;> obtain ⟨i, rfl⟩ := Nat.exists_eq_add_of_le h
  · exact ⟨.inl (watch_extends turn j i s), fun hj _ => (watch_eq_of_hasRest hj i).symm⟩
  · exact ⟨.inr (watch_extends turn k i s), fun _ hk => watch_eq_of_hasRest hk i⟩

theorem heard_consistent (turn : σ → Turn σ) (ns ns' : List Nat) (s : σ) :
    Consistent (heard (run turn) ns s) (heard (run turn) ns' s) := by
  obtain ⟨j, -, hj⟩ := exists_watch_eq turn ns s
  obtain ⟨k, -, hk⟩ := exists_watch_eq turn ns' s
  rw [hj, hk]
  exact watch_consistent turn j k s

/-- What is heard of some calls is heard of all that are many enough and have a budget. -/
theorem exists_heard_extends (turn : σ → Turn σ) (ns : List Nat) (s : σ) :
    ∃ k, ∀ ns' : List Nat, k ≤ ns'.length → (∀ n ∈ ns', 0 < n) →
      (heard (run turn) ns s).1 <+: (heard (run turn) ns' s).1 := by
  obtain ⟨k, -, hk⟩ := exists_watch_eq turn ns s
  refine ⟨k, fun ns' hlen hpos => ?_⟩
  obtain ⟨j, hj, heq⟩ := exists_watch_eq turn ns' s
  obtain ⟨i, rfl⟩ := Nat.exists_eq_add_of_le (Nat.le_trans hlen (hj hpos))
  rw [hk, heq]
  exact watch_extends turn k i s

/-! ## What is bound to happen -/

/-- Within so many turns `P` holds. -/
inductive Soon (turn : σ → Turn σ) (P : σ → Prop) : Nat → σ → Prop
  | now {k : Nat} {s : σ} (holds : P s) : Soon turn P k s
  | event {k : Nat} {s s' : σ} {e : Event} (taken : turn s = event e s') (next : Soon turn P k s') :
      Soon turn P (k + 1) s
  | step {k : Nat} {s s' : σ} (taken : turn s = step s') (next : Soon turn P k s') :
      Soon turn P (k + 1) s

/-- If each call that has a budget comes to `Q` or closer, then as many calls as there are turns left come
to `Q`. -/
theorem Soon.called {P Q : σ → Prop} {call : Nat → σ → Event × σ} (hP : ∀ s, P s → Q s)
    (hcall : ∀ {k n s}, 0 < n → Soon turn P k s →
      Q (call n s).2 ∨ ∃ j, j < k ∧ Soon turn P j (call n s).2)
    {k : Nat} (h : Soon turn P k s) {ns : List Nat} (hlen : k ≤ ns.length) (hpos : ∀ n ∈ ns, 0 < n) :
    ∃ i, Q (LineBasic.called call (ns.take i) s) := by
  induction ns generalizing k s with
  | nil =>
    refine ⟨0, ?_⟩
    cases h with
    | now hs => exact hP s hs
    | event | step => exact absurd hlen (Nat.not_succ_le_zero _)
  | cons n ns ih =>
    obtain ⟨hn, hns⟩ := List.forall_mem_cons.1 hpos
    rcases hcall hn h with hq | ⟨j, hlt, hsoon⟩
    · exact ⟨1, hq⟩
    · rw [List.length_cons] at hlen
      obtain ⟨i, hi⟩ := ih hsoon (by omega) hns
      exact ⟨i + 1, hi⟩

end Turn

end LineBasic
