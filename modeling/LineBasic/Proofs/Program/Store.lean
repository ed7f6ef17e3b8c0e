import LineBasic.Machine.Entry
import LineBasic.Proofs.Lexeme

/-!
# Changes of the program store

`Alters p c q` says what a change `c` of the store does, so nothing else has to look at how lines are
stored. The labels of a program ascend, and every change keeps it so (`Alters.ascending`).
-/
namespace LineBasic.Program

/-! ## What a change does -/

inductive Alters (p : Program) : Change → Program → Prop
  | unchanged : Alters p .unchanged p
  | added (line : Line) (h : p.slot? line.label = none) :
      Alters p (.added (p.freeSlot line.label)) ⟨p.lines.insertIdx (p.freeSlot line.label) line⟩
  | updated {i : Nat} (line : Line) (h : p.slot? line.label = some i) :
      Alters p (.updated i) ⟨p.lines.set i line⟩
  | removed {i : Nat} (label : Label) (h : p.slot? label = some i) :
      Alters p (.removed i) ⟨p.lines.eraseIdx i⟩

theorem Alters.eq_of_unchanged {p q : Program} (h : Alters p .unchanged q) : q = p := by
  cases h
  rfl

theorem insert_alters (p : Program) (label : Label) (s : Statement) (written : Bool) :
    Alters p (p.insert label s written).1 (p.insert label s written).2 := by
  unfold insert
  dsimp only
  split
  · next hi =>
    split
    · exact .unchanged
    · exact .updated _ hi
  · next hn => exact .added ⟨label, written, { s with label := some label }⟩ hn

theorem erase_alters (p : Program) (label : Label) : Alters p (p.erase label).1 (p.erase label).2 := by
  unfold erase
  split
  · next hi => exact .removed label hi
  · exact .unchanged

theorem apply_alters (p : Program) (s : Statement) : Alters p (p.apply s).1 (p.apply s).2 := by
  unfold apply
  split
  · exact .unchanged
  · split
    · exact erase_alters p _
    · exact insert_alters p _ s true

/-! ## The order of the lines -/

/-- The labels ascend. -/
def Ascending (p : Program) : Prop :=
  (p.lines.map Line.label).Pairwise (· < ·)

theorem ascending_empty : Ascending {} :=
  List.Pairwise.nil

theorem insertIdx_length_takeWhile {α : Type} (f : α → Bool) (l : List α) (a : α) :
    l.insertIdx (l.takeWhile f).length a = l.takeWhile f ++ a :: l.dropWhile f := by
  induction l with
  | nil => rfl
  | cons b l ih =>
    by_cases h : f b = true
    · simp [List.takeWhile_cons_of_pos h, List.dropWhile_cons_of_pos h, ih]
    · simp [List.takeWhile_cons_of_neg h, List.dropWhile_cons_of_neg h]

/-- A new line stands between those with smaller labels and those with greater ones. -/
theorem insertIdx_freeSlot (p : Program) (line : Line) :
    p.lines.insertIdx (p.freeSlot line.label) line =
      p.lines.takeWhile (·.label < line.label) ++ line :: p.lines.dropWhile (·.label < line.label) :=
  insertIdx_length_takeWhile _ _ _

theorem slot?_eq_none {p : Program} {label : Label} (h : p.slot? label = none) :
    ∀ l ∈ p.lines, l.label ≠ label := by
  intro l hl
  simpa using List.findIdx?_eq_none_iff.1 h l hl

theorem label_of_mem_dropWhile {ls : List Line} (h : (ls.map Line.label).Pairwise (· < ·))
    (label : Label) : ∀ l ∈ ls.dropWhile (·.label < label), label ≤ l.label := by
  induction ls with
  | nil => simp
  | cons b ls ih =>
    rw [List.map_cons, List.pairwise_cons] at h
    obtain ⟨hb, hls⟩ := h
    intro l hl
    by_cases hlt : b.label < label
    · rw [List.dropWhile_cons_of_pos (by simpa using hlt)] at hl
      exact ih hls l hl
    · rw [List.dropWhile_cons_of_neg (by simpa using hlt)] at hl
      rcases List.mem_cons.1 hl with rfl | hl
      · exact Nat.le_of_not_lt hlt
      · have := hb l.label (List.mem_map_of_mem hl)
        exact Nat.le_trans (Nat.le_of_not_lt hlt) (Nat.le_of_lt this)

/-- A line that takes the place of one with its label leaves the labels as they are. -/
theorem map_label_set {p : Program} {i : Nat} {line : Line} (h : p.slot? line.label = some i) :
    (p.lines.set i line).map Line.label = p.lines.map Line.label := by
  obtain ⟨l, hl, hlabel⟩ := label_of_slot? h
  rw [List.map_set, ← hlabel]
  refine List.ext_getElem? (fun j => ?_)
  rw [List.getElem?_set]
  split
  · next hij =>
    subst hij
    obtain ⟨hi, hget⟩ := List.getElem?_eq_some_iff.1 hl
    simp [hi, hget]
  · rfl

/-- The labels ascend after every change if they did before. -/
theorem Alters.ascending {p q : Program} {c : Change} (h : Alters p c q) (hp : p.Ascending) :
    q.Ascending := by
  cases h with
  | unchanged => exact hp
  | added line hn =>
    have hbefore : ∀ l ∈ p.lines.takeWhile (·.label < line.label), l.label < line.label := by
      intro l hl
      simpa using List.mem_takeWhile_imp hl
    have hafter : ∀ l ∈ p.lines.dropWhile (·.label < line.label), line.label < l.label := by
      intro l hl
      have hle := label_of_mem_dropWhile hp line.label l hl
      have hne := slot?_eq_none hn l ((List.dropWhile_sublist _).subset hl)
      exact Nat.lt_of_le_of_ne hle hne.symm
    have htake := hp.sublist ((List.takeWhile_sublist (·.label < line.label)).map _)
    have hdrop := hp.sublist ((List.dropWhile_sublist (·.label < line.label)).map _)
    unfold Ascending
    rw [insertIdx_freeSlot, List.map_append, List.map_cons, List.pairwise_append, List.pairwise_cons]
    refine ⟨htake, ⟨?_, hdrop⟩, ?_⟩
    · simpa using hafter
    · intro a ha b hb
      obtain ⟨l, hl, rfl⟩ := List.mem_map.1 ha
      rcases List.mem_cons.1 hb with rfl | hb
      · exact hbefore l hl
      · obtain ⟨k, hk, rfl⟩ := List.mem_map.1 hb
        exact Nat.lt_trans (hbefore l hl) (hafter k hk)
  | updated line hi =>
    unfold Ascending
    rw [map_label_set hi]
    exact hp
  | removed label hi => exact hp.sublist ((List.eraseIdx_sublist _ _).map _)

/-! ## Slots -/

theorem freeSlot_le (p : Program) (label : Label) : p.freeSlot label ≤ p.size :=
  (List.takeWhile_sublist _).length_le

theorem lt_size_of_slot? {p : Program} {label : Label} {i : Nat} (h : p.slot? label = some i) :
    i < p.size :=
  (List.findIdx?_eq_some_iff_getElem.1 h).1

/-- Storing a statement brings no other line than its own into the program. -/
theorem mem_of_mem_insert {p : Program} {label : Label} {s : Statement} {written : Bool} {l : Line}
    (h : l ∈ (p.insert label s written).2.lines) :
    l ∈ p.lines ∨ l = ⟨label, written, { s with label := some label }⟩ := by
  unfold insert at h
  dsimp only at h
  split at h
  · split at h
    · exact .inl h
    · exact List.mem_or_eq_of_mem_set h
  · exact ((List.mem_insertIdx (freeSlot_le p label)).1 h).symm

theorem mem_of_mem_apply {p : Program} {s : Statement} {l : Line} (h : l ∈ (p.apply s).2.lines) :
    l ∈ p.lines ∨ s.keyword ≠ .blank ∧
      ∃ label, s.label = some label ∧ l = ⟨label, true, { s with label := some label }⟩ := by
  unfold apply at h
  split at h
  · exact .inl h
  · next label hlabel =>
    split at h
    · unfold erase at h
      split at h
      · exact .inl (List.mem_of_mem_eraseIdx h)
      · exact .inl h
    · next hk => exact (mem_of_mem_insert h).imp_right (fun hl => ⟨hk, label, hlabel, hl⟩)

theorem Alters.size_added {p q : Program} {j : Nat} (h : Alters p (.added j) q) :
    j ≤ p.size ∧ q.size = p.size + 1 := by
  cases h with
  | added line =>
    have hfree := freeSlot_le p line.label
    exact ⟨hfree, List.length_insertIdx_of_le_length hfree line⟩

theorem Alters.size_updated {p q : Program} {j : Nat} (h : Alters p (.updated j) q) :
    q.size = p.size := by
  cases h with
  | updated line => exact List.length_set

theorem Alters.size_removed {p q : Program} {j : Nat} (h : Alters p (.removed j) q) :
    j < p.size ∧ q.size = p.size - 1 := by
  cases h with
  | removed label hj =>
    have hlt := lt_size_of_slot? hj
    exact ⟨hlt, List.length_eraseIdx_of_lt hlt⟩

/-- A slot of the program, or the one behind the last, moves to such a slot. -/
theorem Alters.shift_le {p q : Program} {c : Change} (h : Alters p c q) {i : Nat} (hi : i ≤ p.size) :
    c.shift i ≤ q.size := by
  cases c with
  | unchanged => exact h.eq_of_unchanged ▸ hi
  | updated j => exact h.size_updated ▸ hi
  | added j =>
    obtain ⟨hj, hsize⟩ := h.size_added
    rw [Change.shift]
    split <;> omega
  | removed j =>
    obtain ⟨hj, hsize⟩ := h.size_removed
    rw [Change.shift]
    split <;> omega

/-- It moves behind the last line if it was there before, or if no line is left. -/
theorem Alters.shift_eq_size {p q : Program} {c : Change} (h : Alters p c q) {i : Nat}
    (hi : i ≤ p.size) : c.shift i = q.size ↔ i = p.size ∨ q.size = 0 := by
  cases c with
  | unchanged =>
    rw [h.eq_of_unchanged, Change.shift]
    omega
  | updated j =>
    rw [h.size_updated, Change.shift]
    omega
  | added j =>
    obtain ⟨hj, hsize⟩ := h.size_added
    rw [Change.shift]
    split <;> omega
  | removed j =>
    obtain ⟨hj, hsize⟩ := h.size_removed
    rw [Change.shift]
    split <;> omega

/-- The slot after a line is still one of the program, or the one behind the last. -/
theorem Alters.shiftAfter_le {p q : Program} {c : Change} (h : Alters p c q) {i : Nat}
    (hi : i ≤ p.size) : c.shiftAfter i ≤ q.size := by
  cases c with
  | unchanged => exact h.eq_of_unchanged ▸ hi
  | updated j => exact h.size_updated ▸ hi
  | added j =>
    obtain ⟨hj, hsize⟩ := h.size_added
    rw [Change.shiftAfter]
    split <;> omega
  | removed j =>
    obtain ⟨hj, hsize⟩ := h.size_removed
    rw [Change.shiftAfter]
    split <;> omega

end LineBasic.Program
