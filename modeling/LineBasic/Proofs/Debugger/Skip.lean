import LineBasic.Debugger
import LineBasic.Proofs.Machine.Calls

/-!
# Skipping remarks

Remarks are skipped by executing them. A machine without a direct statement moves over them, and
comes to rest on the line behind them or fails behind the last line of its program
(`skipRemarks_eq`, `skipRemarks_place`).
-/
namespace LineBasic

/-- The first slot from this one on that holds no remark. -/
def Program.pastRemarks (p : Program) (slot : Nat) : Nat :=
  slot + ((p.lines.drop slot).takeWhile (·.statement.isRemark)).length

theorem Program.isRemark_of_pastRemarks {p : Program} {slot : Nat} {l : Line}
    (h : p.line? (p.pastRemarks slot) = some l) : l.statement.isRemark = false := by
  let ls := p.lines.drop slot
  refine head_dropWhile (·.statement.isRemark) ls l ?_
  calc (ls.dropWhile (·.statement.isRemark)).head?
      = (ls.takeWhile (·.statement.isRemark) ++ ls.dropWhile (·.statement.isRemark))[
          (ls.takeWhile (·.statement.isRemark)).length]? := by
        rw [List.getElem?_append_right (Nat.le_refl _), Nat.sub_self, List.head?_eq_getElem?]
    _ = ls[(ls.takeWhile (·.statement.isRemark)).length]? := by rw [List.takeWhile_append_dropWhile]
    _ = some l := List.getElem?_drop.trans h

theorem Program.pastRemarks_of_not_isRemark {p : Program} {slot : Nat}
    (h : ∀ l, p.line? slot = some l → l.statement.isRemark = false) : p.pastRemarks slot = slot := by
  have hnil : (p.lines.drop slot).takeWhile (·.statement.isRemark) = [] := by
    cases hdrop : p.lines.drop slot with
    | nil => rfl
    | cons l ls =>
      have hl : p.line? slot = some l := by
        rw [line?, ← List.head?_drop, hdrop, List.head?_cons]
      exact List.takeWhile_cons_of_neg (by simp [h l hl])
  rw [pastRemarks, hnil, List.length_nil, Nat.add_zero]

namespace Machine

theorem step_of_remark {m : Machine} (hr : m.status = .running) (hd : m.direct = none) {l : Line}
    (hl : m.program.line? m.cursor = some l) (hrem : l.statement.isRemark = true) :
    m.step = m.moveTo (m.cursor + 1) l.statement.label := by
  have hup : m.upcoming? = some l.statement := by simp [upcoming?, hd, hl]
  have hexec : exec l.statement m = .ok .next m := by
    obtain ⟨_, _, k, args, label⟩ := l
    have hk : k = .remark := by simpa [Statement.isRemark] using hrem
    subst hk
    rfl
  have hrun : m.isRunning = true := by simp [isRunning, hr]
  rw [step, if_pos hrun, hup]
  dsimp only
  rw [hexec]
  simp [follow, hd]

theorem line?_of_lt_remarksAhead {m : Machine} {k : Nat} (h : k < m.remarksAhead) :
    ∃ l, m.program.line? (m.cursor + k) = some l ∧ l.statement.isRemark = true := by
  unfold remarksAhead at h
  have hmem := List.getElem_mem h
  obtain ⟨rest, hrest⟩ :=
    List.takeWhile_prefix (l := m.program.lines.drop m.cursor) (·.statement.isRemark)
  refine ⟨_, ?_, List.mem_takeWhile_imp (p := fun l : Line => l.statement.isRemark) hmem⟩
  calc m.program.line? (m.cursor + k)
      = (m.program.lines.drop m.cursor)[k]? := List.getElem?_drop.symm
    _ = ((m.program.lines.drop m.cursor).takeWhile (·.statement.isRemark))[k]? :=
        (congrArg (·[k]?) hrest.symm).trans (List.getElem?_append_left h)
    _ = some _ := List.getElem?_eq_getElem h

theorem moveTo_of_lt {m : Machine} {slot : Nat} (h : slot < m.program.size) (label : Option Label) :
    m.moveTo slot label = { m with cursor := slot } :=
  if_pos h

/-- Executing remarks moves the cursor over them. -/
theorem repeat_step_remarks {m : Machine} (hr : m.status = .running) (hd : m.direct = none) {k : Nat}
    (h : k < m.remarksAhead) :
    ∃ label, Nat.repeat step (k + 1) m = m.moveTo (m.cursor + k + 1) label := by
  induction k with
  | zero =>
    obtain ⟨l, hl, hrem⟩ := line?_of_lt_remarksAhead h
    exact ⟨_, step_of_remark hr hd hl hrem⟩
  | succ k ih =>
    obtain ⟨label, hk⟩ := ih (by omega)
    obtain ⟨l, hl, hrem⟩ := line?_of_lt_remarksAhead h
    have hlt : m.cursor + k + 1 < m.program.size := by
      obtain ⟨hlt, -⟩ := List.getElem?_eq_some_iff.1 hl
      exact hlt
    rw [moveTo_of_lt hlt] at hk
    refine ⟨l.statement.label, ?_⟩
    rw [Nat.repeat, hk]
    exact step_of_remark (m := { m with cursor := m.cursor + k + 1 }) hr hd hl hrem

theorem repeat_step_of_not_running {m : Machine} (hr : m.status ≠ .running) (k : Nat) :
    Nat.repeat step k m = m := by
  induction k with
  | zero => rfl
  | succ k ih => rw [Nat.repeat, ih, step_of_not_isRunning (by simp [isRunning, hr])]

theorem remarksAhead_le (m : Machine) (h : m.remarksAhead ≠ 0) :
    m.cursor + m.remarksAhead ≤ m.program.size := by
  have hle : m.remarksAhead ≤ (m.program.lines.drop m.cursor).length :=
    (List.takeWhile_sublist _).length_le
  rw [List.length_drop] at hle
  unfold Program.size
  omega

/-- Skipping remarks leaves the machine as it is or moves it over them. -/
theorem skipRemarks_eq {m : Machine} (hd : m.direct = none) :
    m.skipRemarks = m ∨
      ∃ slot label, m.status = .running ∧ slot ≤ m.program.size ∧
        m.skipRemarks = m.moveTo slot label := by
  by_cases hr : m.status = .running
  · cases hk : m.remarksAhead with
    | zero =>
      left
      rw [skipRemarks, hk]
      rfl
    | succ k =>
      right
      obtain ⟨label, hmove⟩ := repeat_step_remarks hr hd (k := k) (by omega)
      refine ⟨m.cursor + k + 1, label, hr, ?_, ?_⟩
      · have := remarksAhead_le m (by omega)
        omega
      · rw [skipRemarks, hk, hmove]
  · left
    exact repeat_step_of_not_running hr _

theorem moveTo_cursor (m : Machine) (slot : Nat) (label : Option Label) :
    (m.moveTo slot label).cursor = slot := by
  unfold moveTo
  dsimp only
  split <;> rfl

/-- Skipping remarks moves the cursor over them, and leaves the open calls alone. -/
theorem skipRemarks_place {m : Machine} (hr : m.status = .running) (hd : m.direct = none) :
    m.skipRemarks.cursor = m.program.pastRemarks m.cursor ∧ m.skipRemarks.depth = m.depth := by
  show m.skipRemarks.cursor = m.cursor + m.remarksAhead ∧ _
  unfold skipRemarks
  cases hk : m.remarksAhead with
  | zero => exact ⟨rfl, rfl⟩
  | succ k =>
    obtain ⟨label, hmove⟩ := repeat_step_remarks hr hd (k := k) (by omega)
    rw [hmove]
    exact ⟨moveTo_cursor m _ label, congrArg Stack.size (moveTo_calls m _ label).1⟩

/-- If there is a line behind the remarks, skipping them only moves the cursor. -/
theorem skipRemarks_of_line? {m : Machine} (hr : m.status = .running) (hd : m.direct = none) {l : Line}
    (hl : m.program.line? (m.program.pastRemarks m.cursor) = some l) :
    m.skipRemarks = { m with cursor := m.program.pastRemarks m.cursor } := by
  have hlt : m.program.pastRemarks m.cursor < m.program.size := (List.getElem?_eq_some_iff.1 hl).1
  have hcursor := (skipRemarks_place hr hd).1
  rcases skipRemarks_eq hd with he | ⟨slot, label, -, -, he⟩
  · rw [← hcursor, he]
  · have hslot : slot = m.program.pastRemarks m.cursor := by
      rw [← hcursor, he, moveTo_cursor]
    rw [he, hslot, moveTo_of_lt hlt]

end Machine

end LineBasic
