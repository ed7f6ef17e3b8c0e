import LineBasic.Proofs.Machine.Return
import LineBasic.Proofs.Program.Table

/-!
# The cursor keeps to its line

The cursor is a slot, and every change of the program moves it. As long as the program has lines, it
stays on its line, whatever is entered or erased around it. When that line is erased, it falls back to
the line before, or to the next if there is none (`revise_keeps_line`).
-/
namespace LineBasic

namespace Program

/-! ## Neighbours -/

/-- Lines are in the order of their labels. -/
theorem Ascending.label_lt_iff {p : Program} (h : p.Ascending) {i j : Nat} {a b : Line}
    (hi : p.line? i = some a) (hj : p.line? j = some b) : a.label < b.label ↔ i < j := by
  constructor
  · exact lt_of_getElem?_lt h (getElem?_labels hi) (getElem?_labels hj)
  · intro hij
    rcases Nat.lt_trichotomy a.label b.label with hlt | heq | hgt
    · exact hlt
    · exact absurd (h.slot_inj hi hj heq) (Nat.ne_of_lt hij)
    · exact absurd (lt_of_getElem?_lt h (getElem?_labels hj) (getElem?_labels hi) hgt) (Nat.lt_asymm hij)

theorem Ascending.label_le_iff {p : Program} (h : p.Ascending) {i j : Nat} {a b : Line}
    (hi : p.line? i = some a) (hj : p.line? j = some b) : a.label ≤ b.label ↔ i ≤ j := by
  rw [← Nat.not_lt, h.label_lt_iff hj hi, Nat.not_lt]

/-- `l` is the last line before the label `x`. -/
structure Precedes (p : Program) (x : Label) (l : Line) : Prop where
  mem : l ∈ p.lines
  below : l.label < x
  last : ∀ k ∈ p.lines, k.label < x → k.label ≤ l.label

theorem Ascending.precedes {p : Program} (h : p.Ascending) {i : Nat} {k l : Line}
    (hk : p.line? i = some k) (hl : p.line? (i + 1) = some l) : p.Precedes l.label k := by
  refine ⟨List.mem_of_getElem? hk, (h.label_lt_iff hk hl).2 (Nat.lt_succ_self i), fun a ha hal => ?_⟩
  obtain ⟨j, hj⟩ := List.mem_iff_getElem?.1 ha
  exact (h.label_le_iff hj hk).2 (Nat.le_of_lt_succ ((h.label_lt_iff hj hl).1 hal))

theorem Ascending.follows {p : Program} (h : p.Ascending) {i : Nat} {k l : Line}
    (hl : p.line? i = some l) (hk : p.line? (i + 1) = some k) : p.Follows (some l.label) k := by
  refine follows_of_line? h ?_
  rwa [countUpTo_of_getElem? h (getElem?_labels hl)]

theorem Ascending.first {p : Program} (h : p.Ascending) {l : Line} (hl : p.line? 0 = some l) :
    ∀ k ∈ p.lines, l.label ≤ k.label := by
  intro k hk
  obtain ⟨j, hj⟩ := List.mem_iff_getElem?.1 hk
  exact (h.label_le_iff hl hj).2 (Nat.zero_le j)

/-! ## Changes move a slot along with its line -/

/-- A change that does not touch the line at a slot moves the slot along with the line. -/
theorem Alters.line?_shift {p q : Program} {c : Change} (h : Alters p c q) {i : Nat} {l : Line}
    (hl : p.line? i = some l) (hu : c ≠ .updated i) (hr : c ≠ .removed i) :
    q.line? (c.shift i) = some l := by
  cases h with
  | unchanged => exact hl
  | added line =>
    rw [Change.shift]
    split
    · next hle => exact (List.getElem?_insertIdx_of_gt (Nat.lt_succ_of_le hle)).trans hl
    · next hlt => exact (List.getElem?_insertIdx_of_lt (Nat.lt_of_not_le hlt)).trans hl
  | updated line =>
    refine (List.getElem?_set_ne ?_).trans hl
    rintro rfl
    exact hu rfl
  | @removed j label =>
    have hne : j ≠ i := by
      rintro rfl
      exact hr rfl
    rw [Change.shift]
    split
    · next hle =>
      obtain ⟨k, rfl⟩ : ∃ k, i = k + 1 := ⟨i - 1, by omega⟩
      rw [Nat.add_sub_cancel]
      exact (List.getElem?_eraseIdx_of_ge (by omega)).trans hl
    · next hlt => exact (List.getElem?_eraseIdx_of_lt (Nat.lt_of_not_le hlt)).trans hl

/-- A change leaves a slot behind the last line there. -/
theorem Alters.line?_shift_eq_none {p q : Program} {c : Change} (h : Alters p c q) {i : Nat}
    (hi : p.line? i = none) : q.line? (c.shift i) = none := by
  rw [line?_eq_none] at hi ⊢
  cases c with
  | unchanged => exact h.eq_of_unchanged ▸ hi
  | updated j => exact h.size_updated ▸ hi
  | added j =>
    obtain ⟨hj, hsize⟩ := h.size_added
    rw [Change.shift]
    split <;> omega
  | removed j =>
    obtain ⟨hj, hsize⟩ := h.size_removed
    rw [Change.shift]
    split <;> omega

variable {p : Program} {s : Statement} {x : Label} {i : Nat} {l : Line}

/-- A typed line does not touch a line with another label. -/
theorem apply_of_label_ne (hl : p.line? i = some l) (hs : s.label = some x) (hx : x ≠ l.label) :
    (p.apply s).1 ≠ .updated i ∧ (p.apply s).1 ≠ .removed i := by
  have hslot {j : Nat} (hj : p.slot? x = some j) : j ≠ i := by
    rintro rfl
    obtain ⟨k, hk, hlabel⟩ := label_of_slot? hj
    cases hk.symm.trans hl
    exact hx hlabel.symm
  rw [apply, hs]
  dsimp only
  split
  · unfold erase
    split
    · next j hj => simp [hslot hj]
    · simp
  · unfold insert
    dsimp only
    split
    · next j hj => simp [hslot hj]
    · simp

theorem apply_of_spelled (h : p.Ascending) (hl : p.line? i = some l) (hs : s.label = some l.label)
    (hk : s.keyword ≠ .blank) : p.apply s = (.updated i, ⟨p.lines.set i (lineOf l.label s true)⟩) := by
  have hslot : p.slot? l.label = some i := (slot?_eq_some_iff h).2 ⟨l, hl, rfl⟩
  rw [apply, hs]
  dsimp only
  rw [if_neg hk, insert, hslot]
  rfl

theorem apply_of_blank (h : p.Ascending) (hl : p.line? i = some l) (hs : s.label = some l.label)
    (hk : s.keyword = .blank) : p.apply s = (.removed i, ⟨p.lines.eraseIdx i⟩) := by
  have hslot : p.slot? l.label = some i := (slot?_eq_some_iff h).2 ⟨l, hl, rfl⟩
  rw [apply, hs]
  dsimp only
  rw [if_pos hk, erase, hslot]

end Program

/-! ## The line at the cursor -/

/-- The line at the cursor was `l`, and it is `k` when `s` has been applied to the program. -/
inductive Program.Moves (p : Program) (s : Statement) (l : Line) : Line → Prop
  | kept (other : s.label ≠ some l.label) : Moves p s l l
  | replaced (own : s.label = some l.label) (spelled : s.keyword ≠ .blank) :
      Moves p s l ⟨l.label, true, { s with label := some l.label }⟩
  | back {k : Line} (own : s.label = some l.label) (erased : s.keyword = .blank)
      (before : p.Precedes l.label k) : Moves p s l k
  | onward {k : Line} (own : s.label = some l.label) (erased : s.keyword = .blank)
      (first : ∀ j ∈ p.lines, l.label ≤ j.label) (next : p.Follows (some l.label) k) : Moves p s l k

namespace Machine

/-- The machine is about to execute the line `l` of its program. -/
structure At (m : Machine) (l : Line) : Prop where
  direct : m.direct = none
  line : m.program.line? m.cursor = some l

/-- Labelled lines have been applied one by one from `m` on, and none of them has left the program without
lines. -/
inductive Revisions (m : Machine) : Machine → Prop
  | refl : Revisions m m
  | revise {n : Machine} (s : Statement) : Revisions m n → s.label.isSome = true →
      (n.revise s).2.program.isEmpty = false → Revisions m (n.revise s).2

variable {m n : Machine} {l : Line} {s : Statement}

/-- The line at the cursor is erased. -/
theorem At.erase (h : m.At l) (hp : m.program.Ascending) (hs : s.label = some l.label)
    (hk : s.keyword = .blank) (hne : (m.revise s).2.program.isEmpty = false) :
    ∃ k, (m.revise s).2.At k ∧ m.program.Moves s l k := by
  have happly := Program.apply_of_blank hp h.line hs hk
  have hline : (m.revise s).2.program.line? (m.revise s).2.cursor =
      (m.program.lines.eraseIdx m.cursor)[m.cursor - 1]? := by
    show (m.program.apply s).2.line? ((m.program.apply s).1.shift m.cursor) = _
    rw [happly, Change.shift, if_pos (Nat.le_refl _)]
    rfl
  have hprogram : (m.revise s).2.program = ⟨m.program.lines.eraseIdx m.cursor⟩ := congrArg Prod.snd happly
  have hl := h.line
  generalize m.cursor = i at hl hline hprogram
  cases i with
  | zero =>
    -- it was the first line, so the next one is now the first
    have hpos : 0 < (m.program.lines.eraseIdx 0).length := by
      rw [hprogram] at hne
      exact List.length_pos_iff.2 (List.isEmpty_eq_false_iff.1 hne)
    have hk' := List.getElem?_eq_getElem hpos
    refine ⟨_, ⟨h.direct, hline.trans hk'⟩, .onward hs hk (hp.first hl) (hp.follows hl ?_)⟩
    exact (List.getElem?_eraseIdx_of_ge (Nat.zero_le 0)).symm.trans hk'
  | succ i =>
    have hlt : i < m.program.lines.length :=
      Nat.lt_of_succ_lt (List.getElem?_eq_some_iff.1 hl).1
    have hk' : m.program.line? i = some _ := List.getElem?_eq_getElem hlt
    refine ⟨_, ⟨h.direct, hline.trans ?_⟩, .back hs hk (hp.precedes hk' hl)⟩
    exact (List.getElem?_eraseIdx_of_lt (Nat.lt_succ_self i)).trans hk'

/-- A line with another label leaves the cursor on its line. -/
theorem At.keep (h : m.At l) {x : Label} (hs : s.label = some x) (hx : x ≠ l.label) :
    (m.revise s).2.At l := by
  obtain ⟨hu, hr⟩ := Program.apply_of_label_ne h.line hs hx
  exact ⟨h.direct, (Program.apply_alters m.program s).line?_shift h.line hu hr⟩

theorem At.revise (h : m.At l) (hp : m.program.Ascending) (hs : s.label.isSome = true)
    (hne : (m.revise s).2.program.isEmpty = false) :
    ∃ k, (m.revise s).2.At k ∧ m.program.Moves s l k := by
  obtain ⟨x, hx⟩ := Option.isSome_iff_exists.1 hs
  by_cases hxl : x = l.label
  · subst hxl
    by_cases hk : s.keyword = .blank
    · exact h.erase hp hx hk hne
    · have happly := Program.apply_of_spelled hp h.line hx hk
      refine ⟨_, ⟨h.direct, ?_⟩, .replaced hx hk⟩
      show (m.program.apply s).2.line? ((m.program.apply s).1.shift m.cursor) = _
      rw [happly]
      exact List.getElem?_set_self (List.getElem?_eq_some_iff.1 h.line).1
  · exact ⟨l, h.keep hx hxl, .kept (fun hown => hxl (Option.some.inj (hx.symm.trans hown)))⟩

/-- After any revisions that leave the program with lines, the cursor is on a line. -/
theorem Revisions.at (h : Revisions m n) (hp : m.program.Ascending) (hm : m.At l) :
    n.program.Ascending ∧ ∃ k, n.At k := by
  induction h with
  | refl => exact ⟨hp, l, hm⟩
  | revise s _ hs hne ih =>
    obtain ⟨hn, k, hk⟩ := ih
    obtain ⟨k', hk', -⟩ := hk.revise hn hs hne
    exact ⟨revise_ascending s hn, k', hk'⟩

/-- Whatever labelled lines are applied, as long as the program has lines the cursor stays on its line. If
that line is erased, it falls back to the line before, or to the next if there is none. -/
theorem revise_keeps_line (hp : m.program.Ascending) (hm : m.At l) (h : Revisions m n)
    (hs : s.label.isSome = true) (hne : (n.revise s).2.program.isEmpty = false) :
    ∃ k k', n.At k ∧ (n.revise s).2.At k' ∧ n.program.Moves s k k' := by
  obtain ⟨hn, k, hk⟩ := h.at hp hm
  obtain ⟨k', hk', hmoves⟩ := hk.revise hn hs hne
  exact ⟨k, k', hk, hk', hmoves⟩

/-- A run that has come to its second line. -/
def halfway : Machine :=
  ((((ofSeed 1).submit "10 LET A = 1").2.submit "20 LET B = 2").2.submit "30 END").2.start.step

/-- A line is put before the one at the cursor, and the first line is erased. When the line at the cursor is
erased as well, the cursor falls back to the new line. -/
theorem revise_keeps_line_halfway :
    let erased : Statement := ⟨.blank, [], some 20⟩
    ∃ n : Machine, Revisions halfway n ∧ n.program.lines.map (·.label) = [15, 20, 30] ∧
      (n.program.line? n.cursor).map (·.label) = some 20 ∧
      ((n.revise erased).2.program.line? (n.revise erased).2.cursor).map (·.label) = some 15 ∧
      ∃ k k', n.At k ∧ (n.revise erased).2.At k' ∧ n.program.Moves erased k k' := by
  intro erased
  have h0 : Revisions halfway halfway := .refl
  have h1 := h0.revise ⟨.print, [.expression [.number "9"]], some 15⟩ rfl (by decide +kernel)
  have h2 := h1.revise ⟨.blank, [], some 10⟩ rfl (by decide +kernel)
  have hp : halfway.program.Ascending :=
    ((((Reachable.fresh (.ofSeed 1)).submit _).submit _).submit _).start.step.ascending
  obtain ⟨l, hl⟩ : ∃ l, halfway.program.line? halfway.cursor = some l :=
    Option.isSome_iff_exists.1 (by decide +kernel)
  have hat : halfway.At l := ⟨Option.isNone_iff_eq_none.1 (by decide +kernel), hl⟩
  exact ⟨_, h2, by decide +kernel, by decide +kernel, by decide +kernel,
    revise_keeps_line hp hat h2 rfl (by decide +kernel)⟩

end Machine

end LineBasic
