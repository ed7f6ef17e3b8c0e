import LineBasic.Proofs.Machine.Calls

/-!
# Reachable machines

The machines that text and commands can lead to, and that the labels of their programs ascend.
-/
namespace LineBasic

theorem bind_eq_ok {ε α β : Type} {x : Except ε α} {f : α → Except ε β} {b : β}
    (h : x.bind f = .ok b) : ∃ a, x = .ok a ∧ f a = .ok b := by
  cases x with
  | error e => cases h
  | ok a => exact ⟨a, rfl, h⟩

/-! ## Programs from files -/

namespace Program

/-- What becomes of a line of a file: it is applied if it has a label, skipped if it is blank, and
numbered otherwise. -/
inductive Adds (last : Label) (p : Program) (s : Statement) : Label × Program → Prop
  | applied {label : Label} (hlabel : s.label = some label) : Adds last p s (label, (p.apply s).2)
  | skipped : Adds last p s (last, p)
  | numbered (spelled : s.keyword ≠ .blank) (room : last < maxLabel) :
      Adds last p s (last + 1, (p.insert (last + 1) s false).2)

theorem adds_of_addText {last : Label} {p : Program} {text : List Char} {r : Label × Program}
    (h : addText last p text = .ok r) :
    ∃ s, Statement.parse (String.ofList text) = .ok s ∧ Adds last p s r := by
  obtain ⟨s, hparse, h⟩ := bind_eq_ok h
  cases hs : Statement.parse (String.ofList text) with
  | error e =>
    rw [hs] at hparse
    cases hparse
  | ok s' =>
    rw [hs] at hparse
    cases hparse
    refine ⟨s, rfl, ?_⟩
    split at h
    · next hlabel =>
      cases h
      exact .applied hlabel
    · split at h
      · cases h
        exact .skipped
      · next hk =>
        split at h
        · cases h
        · next hlast =>
          cases h
          exact .numbered hk (Nat.lt_of_not_le hlast)

theorem ascending_of_addText {last : Label} {p : Program} {text : List Char} {r : Label × Program}
    (h : addText last p text = .ok r) (hp : p.Ascending) : r.2.Ascending := by
  obtain ⟨s, -, hadds⟩ := adds_of_addText h
  cases hadds with
  | applied => exact (apply_alters p s).ascending hp
  | skipped => exact hp
  | numbered => exact (insert_alters p _ s false).ascending hp

/-- What holds for the empty program, and still holds when a line of a file is added, holds for the
program that the file holds. -/
theorem of_ofSource {P : Program → Prop} {source : String} (hempty : P {})
    (hadd : ∀ {last : Label} {p : Program} {text : List Char} {r : Label × Program},
      text ∈ Text.lines source.toList → addText last p text = .ok r → P p → P r.2)
    {p : Program} (h : ofSource source = .ok p) : P p := by
  have hfold {texts : List (List Char)} {r r' : Label × Program}
      (hlines : ∀ text ∈ texts, text ∈ Text.lines source.toList)
      (h : texts.foldlM (fun r text => addText r.1 r.2 text) r = Except.ok r') (hr : P r.2) :
      P r'.2 := by
    induction texts generalizing r with
    | nil =>
      cases h
      exact hr
    | cons text texts ih =>
      obtain ⟨htext, hlines⟩ := List.forall_mem_cons.1 hlines
      obtain ⟨r₁, ha, h⟩ := bind_eq_ok h
      exact ih hlines h (hadd htext ha hr)
  obtain ⟨r, hr, h⟩ := bind_eq_ok h
  cases h
  exact hfold (fun _ => id) hr hempty

theorem ascending_of_ofSource {source : String} {p : Program} (h : ofSource source = .ok p) :
    p.Ascending :=
  of_ofSource ascending_empty (fun _ => ascending_of_addText) h

end Program

namespace Machine

/-- A new machine, with random numbers of any origin, after anything that can be done with it. -/
inductive Reachable : Machine → Prop
  | fresh (generator : Random.Generator) : Reachable { generator }
  | submit {m : Machine} (text : String) : Reachable m → Reachable (m.submit text).2
  | load {m n : Machine} (source : String) :
      Reachable m → m.replaceProgram source = .ok n → Reachable n
  | start {m : Machine} : Reachable m → Reachable m.start
  | step {m : Machine} : Reachable m → Reachable m.step
  | untilEvent {m : Machine} (steps : Nat) : Reachable m → Reachable (m.untilEvent steps).2
  | breakOff {m : Machine} : Reachable m → Reachable m.breakOff

/-! ## The order of the lines -/

theorem step_ascending {m : Machine} (h : m.program.Ascending) : m.step.program.Ascending := by
  by_cases hr : m.status = .running
  · cases step_lands hr with
    | stopped _ _ hp =>
      rcases hp with hp | hp <;> rw [hp]
      · exact h
      · exact Program.ascending_empty
    | waiting _ _ hp => rwa [hp]
    | running _ _ hp => rwa [hp]
  · rwa [step_of_not_isRunning (by simp [isRunning, hr])]

/-- What a step and fetching an event preserve, a whole run preserves. -/
theorem untilEvent_of_step {P : Machine → Prop} (hstep : ∀ {m}, P m → P m.step)
    (hfetch : ∀ {m}, P m → P m.fetch?.2) (steps : Nat) {m : Machine} (h : P m) :
    P (m.untilEvent steps).2 := by
  fun_induction untilEvent steps m with
  | case1 steps m e n hf =>
    have := hfetch h
    rwa [hf] at this
  | case5 m _ _ _ steps ih => exact ih (hstep h)
  | case2 | case3 | case4 => exact h

theorem untilEvent_ascending {m : Machine} (steps : Nat) (h : m.program.Ascending) :
    (m.untilEvent steps).2.program.Ascending := by
  refine untilEvent_of_step (P := fun m => m.program.Ascending) step_ascending (fun {m} h => ?_) steps h
  obtain ⟨es, hes⟩ := m.fetch?_snd
  rwa [hes]

theorem takeAnswer_program (m : Machine) (text : String) : (m.takeAnswer text).program = m.program :=
  (takeAnswer_revised m text).program.eq_of_unchanged

theorem revise_ascending {m : Machine} (s : Statement) (h : m.program.Ascending) :
    (m.revise s).2.program.Ascending :=
  (Program.apply_alters m.program s).ascending h

theorem submitStatement_ascending {m : Machine} (s : Statement) (h : m.program.Ascending) :
    (m.submitStatement s).2.program.Ascending := by
  obtain ⟨c, hc⟩ := submitStatement_revised m s
  exact hc.program.ascending h

/-- The labels of a reachable machine's program ascend. -/
theorem Reachable.ascending {m : Machine} (h : Reachable m) : m.program.Ascending := by
  induction h with
  | fresh => exact Program.ascending_empty
  | @submit m text _ ih =>
    obtain ⟨c, hc⟩ := submit_revised m text
    exact hc.program.ascending ih
  | load source _ hl =>
    obtain ⟨p, hp, hl⟩ := bind_eq_ok hl
    cases hl
    exact Program.ascending_of_ofSource hp
  | start _ ih => exact ih
  | step _ ih => exact step_ascending ih
  | untilEvent steps _ ih => exact untilEvent_ascending steps ih
  | @breakOff m _ ih => rcases m.breakOff_eq with he | ⟨e, he⟩ <;> rwa [he]

end Machine

end LineBasic
