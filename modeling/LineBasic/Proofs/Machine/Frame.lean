import LineBasic.Proofs.Machine.Action
import LineBasic.Proofs.Program.Store

/-!
# Where a step leaves the machine

Executing a statement changes neither the cursor nor the status, and the program only if it is
`CLEAR`. So a step leaves a running machine on a line of the same program, waiting where it was, or
stopped (`step_lands`).
-/
namespace LineBasic.Machine

variable {α β : Type}

/-- The machines are at the same place of the same run. -/
structure SamePlace (m n : Machine) : Prop where
  program : n.program = m.program
  cursor : n.cursor = m.cursor
  direct : n.direct = m.direct
  status : n.status = m.status

theorem SamePlace.refl (m : Machine) : SamePlace m m :=
  ⟨rfl, rfl, rfl, rfl⟩

theorem SamePlace.trans {m n o : Machine} (h : SamePlace m n) (h' : SamePlace n o) : SamePlace m o where
  program := h'.program.trans h.program
  cursor := h'.cursor.trans h.cursor
  direct := h'.direct.trans h.direct
  status := h'.status.trans h.status

/-! ## Actions -/

/-- The machine after an action. -/
def final : EStateM.Result Error Machine α → Machine
  | .ok _ m => m
  | .error _ m => m

/-- To show how the outcome of a sequence is related to the machine before it, it is enough that the
first action leads to a related machine. -/
theorem bind_outcome {R : Machine → Machine → Prop} {P : Machine → EStateM.Result Error Machine β → Prop}
    (htrans : ∀ {m n r}, R m n → P n r → P m r) (herror : ∀ {m n e}, R m n → P m (.error e n))
    {x : ExecM α} {f : α → ExecM β} (hx : ∀ m, R m (final (x m))) (hf : ∀ a m, P m (f a m))
    (m : Machine) : P m ((x >>= f) m) := by
  have h := hx m
  cases hxm : x m with
  | ok a n =>
    rw [hxm] at h
    rw [bind_of_ok hxm]
    exact htrans h (hf a n)
  | error e n =>
    rw [hxm] at h
    rw [bind_of_error hxm]
    exact herror h

/-- A transitive relation between the machines before and after an action carries over to sequences. -/
theorem final_bind {R : Machine → Machine → Prop} (htrans : ∀ {m n o}, R m n → R n o → R m o)
    {x : ExecM α} {f : α → ExecM β} (hx : ∀ m, R m (final (x m))) (hf : ∀ a m, R m (final (f a m)))
    (m : Machine) : R m (final ((x >>= f) m)) :=
  bind_outcome (P := fun m r => R m (final r)) htrans id hx hf m

def Stays (x : ExecM α) : Prop :=
  ∀ m, SamePlace m (final (x m))

theorem stays_closed : Closed Stays where
  pure _ m := .refl m
  throw _ m := .refl m
  bind hx hf := final_bind .trans hx hf
  get {_ f} hf _ := by
    intro m
    exact hf m m
  value e := by
    intro m
    unfold value
    cases Expression.evaluate m.memory e m.generator <;> exact ⟨rfl, rfl, rfl, rfl⟩
  setMemory _ m := ⟨rfl, rfl, rfl, rfl⟩
  setCalls _ m := ⟨rfl, rfl, rfl, rfl⟩
  setInputs _ m := ⟨rfl, rfl, rfl, rfl⟩
  setFilled _ m := ⟨rfl, rfl, rfl, rfl⟩
  queue _ _ _ m := ⟨rfl, rfl, rfl, rfl⟩

/-- The outcome of a statement that stays where it is, or forgets the program and ends the run. -/
inductive Tame (m : Machine) : EStateM.Result Error Machine Sequel → Prop
  | ok {q : Sequel} {n : Machine} : SamePlace m n → Tame m (.ok q n)
  | error {e : Error} {n : Machine} : SamePlace m n → Tame m (.error e n)
  | cleared {n : Machine} : n.program = {} → Tame m (.ok .halt n)

theorem Stays.tame {x : ExecM Sequel} (h : Stays x) (m : Machine) : Tame m (x m) := by
  have hm := h m
  cases hx : x m with
  | ok q n =>
    rw [hx] at hm
    exact .ok hm
  | error e n =>
    rw [hx] at hm
    exact .error hm

theorem Tame.of_samePlace {m n : Machine} {r : EStateM.Result Error Machine Sequel} (h : Tame n r)
    (hs : SamePlace m n) : Tame m r := by
  cases h with
  | ok h => exact .ok (hs.trans h)
  | error h => exact .error (hs.trans h)
  | cleared hp => exact .cleared hp

theorem Stays.tame_bind {x : ExecM α} {f : α → ExecM Sequel} (hx : Stays x)
    (hf : ∀ a m, Tame m (f a m)) (m : Machine) : Tame m ((x >>= f) m) :=
  bind_outcome (fun hs h => h.of_samePlace hs) .error hx hf m

theorem exec_tame (s : Statement) (m : Machine) : Tame m (exec s m) := by
  revert m
  refine stays_closed.exec (Q := fun x => ∀ m, Tame m (x m)) (fun hx => hx.tame)
    (fun hx hf => hx.tame_bind hf) (fun m => .cleared rfl) s

/-! ## Steps -/

theorem status_of_isRunning {m : Machine} (h : m.isRunning = true) : m.status = .running := by
  simpa [isRunning] using h

/-- Where a step of the running machine `m` may lead. -/
inductive Lands (m n : Machine) : Prop
  | stopped (status : n.status = .stopped) (direct : n.direct = none)
      (program : n.program = m.program ∨ n.program = {})
  | waiting (status : n.status = .waiting) (direct : n.direct = m.direct)
      (program : n.program = m.program) (cursor : n.cursor = m.cursor)
  | running (status : n.status = .running) (direct : n.direct = none)
      (program : n.program = m.program) (cursor : n.cursor < n.program.size)

theorem moveTo_lands {m n : Machine} (hs : n.status = .running) (hd : n.direct = none)
    (hp : n.program = m.program) (slot : Nat) (label : Option Label) :
    Lands m (n.moveTo slot label) := by
  unfold moveTo
  dsimp only
  split
  · next hlt => exact .running hs hd hp hlt
  · exact .stopped rfl rfl (.inl hp)

theorem follow_lands {m n : Machine} (hr : m.status = .running) (h : SamePlace m n)
    (label : Option Label) (q : Sequel) : Lands m (n.follow label q) := by
  have hs : n.status = .running := h.status.trans hr
  cases q with
  | next =>
    unfold follow
    by_cases hd : n.direct.isSome = true
    · rw [if_pos hd]
      exact .stopped rfl rfl (.inl h.program)
    · rw [if_neg hd]
      exact moveTo_lands hs (by simpa using hd) h.program _ label
  | jump slot => exact moveTo_lands (n := { n with direct := none }) hs rfl h.program slot label
  | halt => exact .stopped rfl rfl (.inl h.program)
  | restart =>
    cases he : n.program.isEmpty with
    | true => exact .stopped (by simp [follow, start, he]) rfl (.inl h.program)
    | false =>
      refine .running (by simp [follow, start, he]) rfl h.program ?_
      show 0 < n.program.lines.length
      simpa [Program.isEmpty, List.length_pos_iff] using he
  | wait => exact .waiting rfl h.direct h.program h.cursor

/-- A step leads to a line of the same program, waits where it is, or stops. -/
theorem step_lands {m : Machine} (hr : m.status = .running) : Lands m m.step := by
  have hrun : m.isRunning = true := by simp [isRunning, hr]
  rw [step, if_pos hrun]
  cases m.upcoming? with
  | none => exact .stopped rfl rfl (.inl rfl)
  | some s =>
    dsimp only
    have h := exec_tame s m
    cases hx : exec s m with
    | error e n =>
      rw [hx] at h
      cases h with
      | error h => exact .stopped rfl rfl (.inl h.program)
    | ok q n =>
      rw [hx] at h
      cases h with
      | ok h => exact follow_lands hr h s.label q
      | cleared hp => exact .stopped rfl rfl (.inr hp)

end LineBasic.Machine
