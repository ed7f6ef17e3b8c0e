import LineBasic.Proofs.Machine.Calls
import LineBasic.Proofs.Machine.Events

/-!
# Runs with given answers

A machine that is left to itself makes one step after the other, and takes the next of the given answers
where it waits (`strides`). `FirstAt` is the first place of such a run at which something holds. Someone
who runs a machine step by step, fetches its events and passes on the answers goes along that run
(`Along`), and comes to its first place or passes none (`Along.step`).
-/
namespace LineBasic.Machine

/-! ## Machines without their events -/

def muted (m : Machine) : Machine :=
  { m with events := [] }

/-- What does not look at the events does the same to machines that differ in nothing else. -/
theorem muted_congr {f : Machine → Machine} (hf : ∀ es m, f (m.behind es) = (f m).behind es)
    {m n : Machine} (h : m.muted = n.muted) : (f m).muted = (f n).muted := by
  have hmuted (m : Machine) : (f m).muted = (f m.muted).muted := by
    have hm : m = m.muted.behind m.events := by simp [muted, behind]
    rw [hm, hf]
    rfl
  rw [hmuted m, h, ← hmuted n]

theorem step_muted {m n : Machine} (h : m.muted = n.muted) : m.step.muted = n.step.muted :=
  muted_congr step_behind h

theorem takeAnswer_muted {m n : Machine} (h : m.muted = n.muted) (text : String) :
    (m.takeAnswer text).muted = (n.takeAnswer text).muted :=
  muted_congr (f := (·.takeAnswer text)) (fun es m => takeAnswer_behind es m text) h

theorem status_of_muted {m n : Machine} (h : m.muted = n.muted) : m.status = n.status :=
  congrArg (·.status) h

/-! ## Runs -/

/-- One step of a run, and the answers that are left after it. A machine that waits takes an answer
first. -/
def stride (m : Machine) (answers : List String) : Option (Machine × List String) :=
  match m.status with
  | .stopped => none
  | .running => some (m.step, answers)
  | .waiting =>
    match answers with
    | [] => none
    | text :: rest =>
      if (m.takeAnswer text).isRunning then some ((m.takeAnswer text).step, rest) else none

/-- So many steps of a run. -/
def strides (m : Machine) (answers : List String) : Nat → Option (Machine × List String)
  | 0 => some (m, answers)
  | k + 1 => (m.strides answers k).bind fun r => r.1.stride r.2

/-- The machine after so many steps of a run. -/
def after? (m : Machine) (answers : List String) (k : Nat) : Option Machine :=
  (m.strides answers k).map Prod.fst

/-- A step is made by the machine itself, or by what an answer makes of it. -/
theorem stride_eq_some {m n : Machine} {answers rest : List String}
    (h : m.stride answers = some (n, rest)) :
    (m.status = .running ∧ n = m.step ∧ rest = answers) ∨
      ∃ text, m.status = .waiting ∧ answers = text :: rest ∧
        (m.takeAnswer text).isRunning = true ∧ n = (m.takeAnswer text).step := by
  unfold stride at h
  split at h
  · cases h
  · next hs =>
    cases h
    exact .inl ⟨hs, rfl, rfl⟩
  · next hs =>
    split at h
    · cases h
    · split at h
      · next hr =>
        cases h
        exact .inr ⟨_, hs, rfl, hr, rfl⟩
      · cases h

theorem stride_of_running {m : Machine} (h : m.status = .running) (answers : List String) :
    m.stride answers = some (m.step, answers) := by
  unfold stride
  rw [h]

theorem stride_of_answer {m : Machine} (h : m.status = .waiting) {text : String}
    (hr : (m.takeAnswer text).isRunning = true) (rest : List String) :
    m.stride (text :: rest) = some ((m.takeAnswer text).step, rest) := by
  unfold stride
  rw [h]
  exact if_pos hr

theorem stride_of_refusal {m : Machine} (h : m.status = .waiting) {text : String}
    (hr : ¬ (m.takeAnswer text).isRunning = true) (rest : List String) :
    m.stride (text :: rest) = none := by
  unfold stride
  rw [h]
  exact if_neg hr

theorem stride_of_stopped {m : Machine} (h : m.status = .stopped) (answers : List String) :
    m.stride answers = none := by
  unfold stride
  rw [h]

theorem stride_of_waiting {m : Machine} (h : m.status = .waiting) : m.stride [] = none := by
  unfold stride
  rw [h]

/-- Answers that are not needed yet change nothing. -/
theorem stride_append {m n : Machine} {answers rest : List String}
    (h : m.stride answers = some (n, rest)) (more : List String) :
    m.stride (answers ++ more) = some (n, rest ++ more) := by
  rcases stride_eq_some h with ⟨hs, rfl, rfl⟩ | ⟨text, hs, rfl, hr, rfl⟩
  · exact stride_of_running hs _
  · exact stride_of_answer hs hr _

section

variable {m n : Machine} {answers rest : List String} {k : Nat}

theorem strides_succ (h : m.strides answers k = some (n, rest)) :
    m.strides answers (k + 1) = n.stride rest := by
  rw [strides, h]
  rfl

theorem strides_append (h : m.strides answers k = some (n, rest)) (more : List String) :
    m.strides (answers ++ more) k = some (n, rest ++ more) := by
  induction k generalizing n rest with
  | zero =>
    cases h
    rfl
  | succ k ih =>
    obtain ⟨⟨o, rest'⟩, ho, h⟩ := Option.bind_eq_some_iff.1 h
    rw [strides_succ (ih ho)]
    exact stride_append h more

/-- A run that has come so far has passed all places before. -/
theorem strides_of_le (h : m.strides answers k = some (n, rest)) {j : Nat} (hj : j ≤ k) :
    ∃ r, m.strides answers j = some r := by
  induction k generalizing n rest with
  | zero =>
    cases Nat.le_zero.1 hj
    exact ⟨_, h⟩
  | succ k ih =>
    rcases Nat.le_succ_iff.1 hj with hj | rfl
    · obtain ⟨⟨o, rest'⟩, ho, -⟩ := Option.bind_eq_some_iff.1 h
      exact ih ho hj
    · exact ⟨_, h⟩

theorem after?_of_strides (h : m.strides answers k = some (n, rest)) : m.after? answers k = some n :=
  congrArg (Option.map Prod.fst) h

theorem strides_of_after? (h : m.after? answers k = some n) :
    ∃ rest, m.strides answers k = some (n, rest) := by
  obtain ⟨⟨o, rest⟩, ho, rfl⟩ := Option.map_eq_some_iff.1 h
  exact ⟨rest, ho⟩

theorem after?_of_le (h : m.after? answers k = some n) {j : Nat} (hj : j ≤ k) :
    ∃ o, m.after? answers j = some o := by
  obtain ⟨rest, h⟩ := strides_of_after? h
  obtain ⟨⟨o, rest⟩, ho⟩ := strides_of_le h hj
  exact ⟨o, after?_of_strides ho⟩

theorem after?_append (h : m.strides answers k = some (n, rest)) {j : Nat} (hj : j ≤ k)
    (more : List String) : m.after? (answers ++ more) j = m.after? answers j := by
  obtain ⟨⟨o, rest⟩, ho⟩ := strides_of_le h hj
  rw [after?_of_strides ho, after?_of_strides (strides_append ho more)]

end

/-! ## The first place of a run -/

/-- The machine `n` is the first of the run, after `k ≥ 1` steps, for which `P` holds. -/
structure FirstAt (m : Machine) (answers : List String) (P : Machine → Prop) (k : Nat) (n : Machine) :
    Prop where
  pos : 0 < k
  after : m.after? answers k = some n
  holds : P n
  before (j : Nat) (o : Machine) : 0 < j → j < k → m.after? answers j = some o → ¬ P o

/-- After none of the first `k` steps `P` holds. -/
def Misses (m : Machine) (answers : List String) (P : Machine → Prop) (k : Nat) : Prop :=
  ∀ j o, 0 < j → j ≤ k → m.after? answers j = some o → ¬ P o

section

variable {m n x y : Machine} {answers rest : List String} {P : Machine → Prop} {k : Nat}

theorem misses_zero (m : Machine) (answers : List String) (P : Machine → Prop) : m.Misses answers P 0 :=
  fun _ _ hpos hj => absurd hj (Nat.not_le.2 hpos)

theorem Misses.succ (h : m.Misses answers P k) (hn : m.after? answers (k + 1) = some n)
    (hP : ¬ P n) : m.Misses answers P (k + 1) := by
  intro j o hpos hj ho
  rcases Nat.le_succ_iff.1 hj with hj | rfl
  · exact h j o hpos hj ho
  · cases hn.symm.trans ho
    exact hP

theorem Misses.first (h : m.Misses answers P k) (hn : m.after? answers (k + 1) = some n) (hP : P n) :
    m.FirstAt answers P (k + 1) n where
  pos := Nat.succ_pos k
  after := hn
  holds := hP
  before j o hpos hj := h j o hpos (Nat.le_of_lt_succ hj)

theorem Misses.append (h : m.Misses answers P k) (hn : m.strides answers k = some (n, rest))
    (more : List String) : m.Misses (answers ++ more) P k := by
  intro j o hpos hj ho
  rw [after?_append hn hj] at ho
  exact h j o hpos hj ho

/-- What has not been passed is still to come. -/
theorem FirstAt.lt_of_misses {l : Nat} (h : m.FirstAt answers P l n) (hk : m.Misses answers P k) :
    k < l :=
  Nat.lt_of_not_le (fun hle => hk l n h.pos hle h.after h.holds)

/-- Answers that are not needed do not put it off. -/
theorem FirstAt.append (h : m.FirstAt answers P k n) (more : List String) :
    m.FirstAt (answers ++ more) P k n := by
  obtain ⟨rest, hn⟩ := strides_of_after? h.after
  refine ⟨h.pos, (after?_append hn (Nat.le_refl k) more).trans h.after, h.holds, fun j o hpos hj ho => ?_⟩
  rw [after?_append hn (Nat.le_of_lt hj)] at ho
  exact h.before j o hpos hj ho

/-- There is one first place. -/
theorem FirstAt.unique {l : Nat} {o : Machine} (h : m.FirstAt answers P k n) (h' : m.FirstAt answers P l o) :
    n = o := by
  rcases Nat.lt_trichotomy k l with hlt | rfl | hlt
  · exact absurd h.holds (h'.before k n h.pos hlt h.after)
  · exact Option.some.inj (h.after.symm.trans h'.after)
  · exact absurd h'.holds (h.before l o h'.pos hlt h'.after)

/-! ## Going along -/

/-- The machine `x` is at a place of a run: the last step has just been made, or the last answer has been
taken since. -/
inductive Stands (x n : Machine) : List String → Prop
  | here (same : x.muted = n.muted) : Stands x n []
  | answered (text : String) (waiting : n.status = .waiting)
      (same : x.muted = (n.takeAnswer text).muted) : Stands x n [text]

/-- The machine `x` has gone along the run from `m` for `k` steps, and `P` has held after none of them. -/
def Along (m : Machine) (answers : List String) (P : Machine → Prop) (k : Nat) (x : Machine) : Prop :=
  m.Misses answers P k ∧ ∃ n rest, m.strides answers k = some (n, rest) ∧ Stands x n rest

theorem along_refl (m : Machine) (P : Machine → Prop) : Along m [] P 0 m :=
  ⟨misses_zero m [] P, m, [], rfl, .here rfl⟩

/-- Events play no part. -/
theorem Along.of_muted (h : Along m answers P k x) (hy : y.muted = x.muted) :
    Along m answers P k y := by
  obtain ⟨hmiss, n, rest, hn, hstands⟩ := h
  refine ⟨hmiss, n, rest, hn, ?_⟩
  cases hstands with
  | here same => exact .here (hy.trans same)
  | answered text hw same => exact .answered text hw (hy.trans same)

theorem takeAnswer_status (m : Machine) (text : String) : (m.takeAnswer text).status ≠ .waiting := by
  rcases takeAnswer_eq m text with ⟨n, vs, -, h⟩ | ⟨n, e, -, -, h⟩ <;> rw [h]
  · simp
  · simp [abort]

theorem Along.answer (h : Along m answers P k x) (hw : x.status = .waiting) (text : String) :
    Along m (answers ++ [text]) P k (x.takeAnswer text) := by
  obtain ⟨hmiss, n, rest, hn, hstands⟩ := h
  refine ⟨hmiss.append hn [text], n, rest ++ [text], strides_append hn [text], ?_⟩
  cases hstands with
  | here same => exact .answered text ((status_of_muted same).symm.trans hw) (takeAnswer_muted same text)
  | answered prev _ same =>
    -- an answer that has been taken is not waited for any more
    exact absurd ((status_of_muted same).symm.trans hw) (takeAnswer_status n prev)

/-- The step of a machine that goes along is the next of the run. -/
theorem Along.stride (h : Along m answers P k x) (hr : x.status = .running) :
    ∃ n, m.strides answers (k + 1) = some (n, []) ∧ x.step.muted = n.muted := by
  obtain ⟨-, n, rest, hn, hstands⟩ := h
  rw [strides_succ hn]
  cases hstands with
  | here same =>
    exact ⟨n.step, stride_of_running ((status_of_muted same).symm.trans hr) [], step_muted same⟩
  | answered text hw same =>
    have hrun : (n.takeAnswer text).isRunning = true := by
      simp [isRunning, ← status_of_muted same, hr]
    exact ⟨_, stride_of_answer hw hrun [], step_muted same⟩

/-- A step leads to the first place of the run, or along without passing it. -/
theorem Along.step (h : Along m answers P k x) (hr : x.status = .running)
    (hP : ∀ {n : Machine}, n.muted = x.step.muted → (P n ↔ P x.step)) :
    (P x.step → ∃ n, m.FirstAt answers P (k + 1) n ∧ x.step.muted = n.muted) ∧
      (¬ P x.step → Along m answers P (k + 1) x.step) := by
  obtain ⟨n, hn, same⟩ := h.stride hr
  have hPn := hP same.symm
  have hafter := after?_of_strides hn
  constructor
  · intro hx
    exact ⟨n, h.1.first hafter (hPn.2 hx), same⟩
  · intro hx
    exact ⟨h.1.succ hafter (fun hPn' => hx (hPn.1 hPn')), n, [], hn, .here same⟩

/-- Where the machine has stopped, or waits and there is no answer, the run does not go on. -/
theorem Along.not_firstAt (h : Along m answers P k x) {more : List String} (hr : x.status ≠ .running)
    (hw : x.status = .waiting → more = []) (l : Nat) : ¬ m.FirstAt (answers ++ more) P l n := by
  intro hfirst
  obtain ⟨hmiss, o, rest, ho, hstands⟩ := h
  obtain ⟨o', ho'⟩ := after?_of_le hfirst.after (hfirst.lt_of_misses (hmiss.append ho more))
  obtain ⟨rest', hstrides⟩ := strides_of_after? ho'
  have hnone : o.stride (rest ++ more) = none := by
    cases hstands with
    | here same =>
      have hs := status_of_muted same
      cases hx : x.status with
      | stopped => exact stride_of_stopped (hs.symm.trans hx) _
      | running => exact absurd hx hr
      | waiting =>
        rw [hw hx]
        exact stride_of_waiting (hs.symm.trans hx)
    | answered text hwaiting same =>
      refine stride_of_refusal hwaiting (fun hrun => hr ?_) more
      rw [status_of_muted same]
      exact status_of_isRunning hrun
  rw [strides_succ (strides_append ho more), hnone] at hstrides
  cases hstrides

end

end LineBasic.Machine
