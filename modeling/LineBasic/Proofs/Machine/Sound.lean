import LineBasic.Proofs.Machine.Reachable
import LineBasic.Proofs.Statement.Sound

/-!
# What a machine may be about to execute

Statements reach a machine as text only, and none of its operations makes new ones. So every statement
of a reachable machine is one that a line spells (`Reachable.sound`).
-/
namespace LineBasic

/-! ## Programs -/

structure Line.Sound (l : Line) : Prop where
  range : 1 ≤ l.label ∧ l.label ≤ maxLabel
  statement : l.statement.Sound
  label : l.statement.label = some l.label
  spelled : l.statement.keyword ≠ .blank

namespace Program

def Sound (p : Program) : Prop :=
  ∀ l ∈ p.lines, l.Sound

theorem sound_empty : Sound {} := by
  intro l hl
  cases hl

theorem Sound.apply {p : Program} (hp : p.Sound) {s : Statement} (hs : s.Sound)
    (hr : ∀ x ∈ s.label, 1 ≤ x ∧ x ≤ maxLabel) : (p.apply s).2.Sound := by
  intro l hl
  rcases mem_of_mem_apply hl with hl | ⟨hk, label, hlabel, rfl⟩
  · exact hp l hl
  · exact ⟨hr label hlabel, hs.withLabel _, rfl, hk⟩

theorem Sound.addText {last : Label} {p : Program} {text : List Char} {r : Label × Program}
    (h : addText last p text = .ok r) (hp : p.Sound) : r.2.Sound := by
  obtain ⟨s, hparse, hadds⟩ := adds_of_addText h
  obtain ⟨hsound, hrange⟩ := Statement.sound_of_parse hparse
  cases hadds with
  | applied => exact hp.apply hsound hrange
  | skipped => exact hp
  | numbered hk hlast =>
    intro l hl
    rcases mem_of_mem_insert hl with hl | rfl
    · exact hp l hl
    · exact ⟨⟨Nat.le_add_left 1 last, hlast⟩, hsound.withLabel _, rfl, hk⟩

theorem sound_of_ofSource {source : String} {p : Program} (h : ofSource source = .ok p) : p.Sound :=
  of_ofSource sound_empty (fun _ => Sound.addText) h

end Program

/-! ## Machines -/

theorem Stack.underflow_of_push {α : Type} {s t : Stack α} {a : α} (h : s.push a = .ok t) :
    t.underflow = s.underflow := by
  unfold push at h
  split at h <;> cases h
  rfl

theorem Stack.underflow_of_pop {α : Type} {s t : Stack α} {a : α} (h : s.pop = .ok (a, t)) :
    t.underflow = s.underflow := by
  unfold pop at h
  split at h <;> cases h
  rfl

namespace Machine

structure Sound (m : Machine) : Prop where
  program : m.program.Sound
  direct : ∀ s ∈ m.direct, s.Sound
  underflow : m.calls.underflow = .returnWithoutGosub

/-- The machine `n` has no statement that `m` has not. -/
structure Inherits (m n : Machine) : Prop where
  program : n.program = m.program ∨ n.program = {}
  direct : n.direct = m.direct ∨ n.direct = none
  underflow : n.calls.underflow = m.calls.underflow

theorem Sound.inherit {m n : Machine} (h : m.Sound) (hn : Inherits m n) : n.Sound where
  program := by
    rcases hn.program with hp | hp <;> rw [hp]
    · exact h.program
    · exact Program.sound_empty
  direct := by
    rcases hn.direct with hd | hd <;> rw [hd]
    · exact h.direct
    · simp
  underflow := hn.underflow.trans h.underflow

theorem Inherits.of_eq {m n : Machine} (hp : n.program = m.program) (hd : n.direct = m.direct)
    (hc : n.calls = m.calls) : Inherits m n :=
  ⟨.inl hp, .inl hd, congrArg Stack.underflow hc⟩

theorem Lands.inherits {m n : Machine} (h : Lands m n)
    (hu : n.calls.underflow = m.calls.underflow) : Inherits m n := by
  cases h with
  | stopped _ hd hp => exact ⟨hp, .inr hd, hu⟩
  | waiting _ hd hp => exact ⟨.inl hp, .inl hd, hu⟩
  | running _ hd hp => exact ⟨.inl hp, .inr hd, hu⟩

theorem CallsAfter.underflow {m n : Machine} (h : CallsAfter m n) :
    n.calls.underflow = m.calls.underflow := by
  cases h with
  | kept hc => rw [hc]
  | opened hc => exact Stack.underflow_of_push hc
  | closed hc => exact Stack.underflow_of_pop hc
  | cleared hc => rw [hc]; rfl

theorem step_inherits (m : Machine) : Inherits m m.step := by
  by_cases hr : m.status = .running
  · exact (step_lands hr).inherits (step_calls m).underflow
  · rw [step_of_not_isRunning (by simp [isRunning, hr])]
    exact .of_eq rfl rfl rfl

theorem fetch?_inherits (m : Machine) : Inherits m m.fetch?.2 := by
  obtain ⟨es, hes⟩ := m.fetch?_snd
  rw [hes]
  exact .of_eq rfl rfl rfl

theorem breakOff_inherits (m : Machine) : Inherits m m.breakOff := by
  rcases m.breakOff_eq with he | ⟨e, he⟩ <;> rw [he]
  · exact .of_eq rfl rfl rfl
  · exact ⟨.inl rfl, .inr rfl, rfl⟩

theorem takeAnswer_inherits (m : Machine) (text : String) : Inherits m (m.takeAnswer text) := by
  rcases takeAnswer_eq m text with ⟨n, vs, quiet, h⟩ | ⟨n, e, quiet, -, h⟩ <;> rw [h]
  · exact .of_eq quiet.program quiet.direct quiet.calls
  · exact ⟨.inl quiet.program, .inr rfl, congrArg Stack.underflow quiet.calls⟩

theorem Sound.submitStatement {m : Machine} (h : m.Sound) {s : Statement} (hs : s.Sound)
    (hr : ∀ x ∈ s.label, 1 ≤ x ∧ x ≤ maxLabel) : (m.submitStatement s).2.Sound := by
  unfold Machine.submitStatement
  split
  · exact ⟨h.program.apply hs hr, h.direct, h.underflow⟩
  · split
    · exact h
    · split
      · exact h.inherit (.of_eq rfl rfl rfl)
      · exact ⟨h.program, fun s' hs' => Option.some.inj hs' ▸ hs, h.underflow⟩

theorem Sound.submit {m : Machine} (h : m.Sound) (text : String) : (m.submit text).2.Sound := by
  unfold Machine.submit
  split
  · exact h.inherit (takeAnswer_inherits m text)
  · unfold parse
    cases hs : Statement.parse text with
    | error e => exact h.inherit (.of_eq rfl rfl rfl)
    | ok s =>
      obtain ⟨hsound, hrange⟩ := Statement.sound_of_parse hs
      exact h.submitStatement hsound hrange

/-- All that a reachable machine may execute was read from a text. -/
theorem Reachable.sound {m : Machine} (h : Reachable m) : m.Sound := by
  induction h with
  | fresh => exact ⟨Program.sound_empty, by simp, rfl⟩
  | submit text _ ih => exact ih.submit text
  | load source _ hl ih =>
    obtain ⟨p, hp, hl⟩ := bind_eq_ok hl
    cases hl
    exact ⟨Program.sound_of_ofSource hp, by simp, ih.underflow⟩
  | start _ ih => exact ih.inherit ⟨.inl rfl, .inr rfl, rfl⟩
  | step _ ih => exact ih.inherit (step_inherits _)
  | untilEvent steps _ ih =>
    exact untilEvent_of_step (fun h => h.inherit (step_inherits _))
      (fun h => h.inherit (fetch?_inherits _)) steps ih
  | breakOff _ ih => exact ih.inherit (breakOff_inherits _)

/-- A sound machine is about to execute a sound statement. -/
theorem Sound.upcoming {m : Machine} (h : m.Sound) {s : Statement} (hs : m.upcoming? = some s) :
    s.Sound := by
  unfold upcoming? at hs
  cases hd : m.direct with
  | some s' =>
    rw [hd] at hs
    cases hs
    exact h.direct s hd
  | none =>
    rw [hd] at hs
    change Option.map _ _ = _ at hs
    obtain ⟨l, hl, rfl⟩ := Option.map_eq_some_iff.1 hs
    exact (h.program l (List.mem_of_getElem? hl)).statement

end Machine

end LineBasic
