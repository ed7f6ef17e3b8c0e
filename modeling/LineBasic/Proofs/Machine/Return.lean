import LineBasic.Proofs.Machine.Input
import Mathlib.Data.List.InsertIdx

/-!
# Where a `RETURN` goes on

An open call keeps a slot, and every change of the program moves it. The slot stays behind the line
of the `GOSUB` as long as that line is there. When the line is erased, the slot falls back behind the
line before it, and from then on it cannot tell whether a line that is entered there comes before or
after the call. So a `RETURN` goes on behind the line that the slot last fell back to (`return_iff`).
-/
namespace LineBasic

theorem Stack.pop_of_getElem? {α : Type} {s : Stack α} {d : Nat} {a : α} (h : s.toList[d]? = some a)
    (hs : s.size = d + 1) : ∃ t, s.pop = .ok (a, t) ∧ t.size = d := by
  cases hp : s.pop with
  | error e =>
    unfold pop at hp
    split at hp
    · next hitems =>
      rw [s.size_eq, hitems] at hs
      cases hs
    · cases hp
  | ok r =>
    obtain ⟨b, t⟩ := r
    have hlist := toList_pop hp
    have ht : t.size = d := Nat.succ.inj ((size_of_pop hp).symm.trans hs)
    rw [hlist, ← ht, size_eq_length, List.getElem?_concat_length] at h
    cases h
    exact ⟨t, rfl, ht⟩

namespace Program

/-! ## The lines up to a label -/

def labels (p : Program) : List Label :=
  p.lines.map Line.label

theorem getElem?_labels {p : Program} {i : Nat} {l : Line} (h : p.line? i = some l) :
    p.labels[i]? = some l.label :=
  List.getElem?_map.trans (congrArg (Option.map Line.label) h)

/-- `label` is at most `a`. With no label for `a`, none is. -/
def isUpTo (a : Option Label) (label : Label) : Bool :=
  a.any (label ≤ ·)

/-- The number of lines up to a label. -/
def countUpTo (p : Program) (a : Option Label) : Nat :=
  p.labels.countP (isUpTo a)

/-- The greatest label of a line up to `x`. -/
def greatest? (p : Program) (x : Label) : Option Label :=
  (p.labels.filter (· ≤ x)).max?

theorem isUpTo_some {x label : Label} : isUpTo (some x) label = true ↔ label ≤ x := by
  simp [isUpTo]

theorem isUpTo_mono {a : Option Label} {x y : Label} (hxy : x ≤ y) (h : isUpTo a y = true) :
    isUpTo a x = true := by
  cases a with
  | none => cases h
  | some z => exact isUpTo_some.2 (Nat.le_trans hxy (isUpTo_some.1 h))

theorem lt_of_getElem?_lt {ls : List Label} (h : ls.Pairwise (· < ·)) {i j : Nat} {x y : Label}
    (hx : ls[i]? = some x) (hy : ls[j]? = some y) (hxy : x < y) : i < j := by
  obtain ⟨hi, rfl⟩ := List.getElem?_eq_some_iff.1 hx
  obtain ⟨hj, rfl⟩ := List.getElem?_eq_some_iff.1 hy
  rcases Nat.lt_trichotomy i j with hij | rfl | hji
  · exact hij
  · exact absurd hxy (Nat.lt_irrefl _)
  · exact absurd hxy (Nat.lt_asymm (List.pairwise_iff_getElem.1 h j i hj hi hji))

/-- In ascending order, the labels up to a label come first. -/
theorem lt_countP_iff {ls : List Label} (h : ls.Pairwise (· < ·)) (a : Option Label) {i : Nat} {x : Label}
    (hx : ls[i]? = some x) : i < ls.countP (isUpTo a) ↔ isUpTo a x = true := by
  induction ls generalizing i with
  | nil => cases hx
  | cons b ls ih =>
    obtain ⟨hb, hls⟩ := List.pairwise_cons.1 h
    by_cases hba : isUpTo a b = true
    · rw [List.countP_cons_of_pos hba]
      cases i with
      | zero =>
        cases hx
        simp [hba]
      | succ i => rw [Nat.add_lt_add_iff_right, ih hls hx]
    · -- from the first label that is too great on, all are
      have hnone : ∀ y ∈ b :: ls, ¬ isUpTo a y = true := by
        intro y hy hya
        rcases List.mem_cons.1 hy with rfl | hy
        · exact hba hya
        · exact hba (isUpTo_mono (Nat.le_of_lt (hb y hy)) hya)
      rw [List.countP_eq_zero.2 hnone]
      simp [hnone x (List.mem_of_getElem? hx)]

/-- A line is the last of those up to its label. -/
theorem countUpTo_of_getElem? {p : Program} (h : p.Ascending) {i : Nat} {x : Label}
    (hx : p.labels[i]? = some x) : p.countUpTo (some x) = i + 1 := by
  have hlt : i < p.countUpTo (some x) := (lt_countP_iff h (some x) hx).2 (isUpTo_some.2 (Nat.le_refl x))
  refine Nat.le_antisymm (Nat.le_of_not_lt (fun hgt => ?_)) hlt
  have hlength : i + 1 < p.labels.length := Nat.lt_of_lt_of_le hgt List.countP_le_length
  have hy := List.getElem?_eq_getElem hlength
  have hle := isUpTo_some.1 ((lt_countP_iff h (some x) hy).1 hgt)
  obtain ⟨hi, rfl⟩ := List.getElem?_eq_some_iff.1 hx
  exact Nat.not_le_of_lt (List.pairwise_iff_getElem.1 h i (i + 1) hi hlength (Nat.lt_succ_self i)) hle

theorem greatest?_eq_some {p : Program} {x z : Label} (h : p.greatest? x = some z) :
    z ≤ x ∧ z ∈ p.labels ∧ ∀ y ∈ p.labels, y ≤ x → y ≤ z := by
  obtain ⟨hz, hmax⟩ := List.max?_eq_some_iff.1 h
  obtain ⟨hz, hzx⟩ := List.mem_filter.1 hz
  exact ⟨of_decide_eq_true hzx, hz, fun y hy hyx => hmax y (List.mem_filter.2 ⟨hy, decide_eq_true hyx⟩)⟩

theorem greatest?_eq_none {p : Program} {x : Label} (h : p.greatest? x = none) :
    ∀ y ∈ p.labels, x < y := by
  intro y hy
  have hnil := List.filter_eq_nil_iff.1 (List.max?_eq_none_iff.1 h) y hy
  simpa using hnil

/-- Between a label and the greatest one up to it there is no line. -/
theorem countUpTo_greatest? (p : Program) (x : Label) :
    p.countUpTo (p.greatest? x) = p.countUpTo (some x) := by
  refine List.countP_congr (fun y hy => ?_)
  cases hg : p.greatest? x with
  | none =>
    have hlt := greatest?_eq_none hg y hy
    rw [isUpTo_some]
    exact ⟨fun h => absurd h Bool.false_ne_true, fun h => absurd h (Nat.not_le_of_lt hlt)⟩
  | some z =>
    obtain ⟨hzx, -, hmax⟩ := greatest?_eq_some hg
    rw [isUpTo_some, isUpTo_some]
    exact ⟨fun h => Nat.le_trans h hzx, hmax y hy⟩

/-! ## Changes move the slot behind a line -/

theorem countP_eraseIdx {f : Label → Bool} {ls : List Label} {i : Nat} {x : Label}
    (h : ls[i]? = some x) : ls.countP f = (ls.eraseIdx i).countP f + if f x then 1 else 0 := by
  induction ls generalizing i with
  | nil => cases h
  | cons y ls ih =>
    cases i with
    | zero =>
      cases h
      rw [List.eraseIdx_cons_zero, List.countP_cons]
    | succ i =>
      rw [List.eraseIdx_cons_succ, List.countP_cons, List.countP_cons, ih h]
      omega

theorem countP_insertIdx {f : Label → Bool} {ls : List Label} {i : Nat} (h : i ≤ ls.length) (x : Label) :
    (ls.insertIdx i x).countP f = ls.countP f + if f x then 1 else 0 :=
  ((List.perm_insertIdx x ls h).countP_eq f).trans List.countP_cons

/-- A line that is added before the line `y` moves the slot behind it, and no other new line does. -/
theorem shiftAfter_added {ls : List Label} {i : Nat} {x y : Label} (hi : i ≤ ls.length)
    (h : (ls.insertIdx i x).Pairwise (· < ·)) (hx : x ∉ ls) (hy : y ∈ ls) :
    (Change.added i).shiftAfter (ls.countP (isUpTo (some y))) =
      (ls.insertIdx i x).countP (isUpTo (some y)) := by
  have hix : (ls.insertIdx i x)[i]? = some x := by rw [List.getElem?_insertIdx_self, if_pos hi]
  obtain ⟨j, hjy⟩ := List.mem_iff_getElem?.1 ((List.mem_insertIdx hi).2 (.inr hy))
  have hj := (lt_countP_iff h (some y) hjy).2 (isUpTo_some.2 (Nat.le_refl y))
  have hi' := lt_countP_iff h (some y) hix
  rw [countP_insertIdx hi] at hj hi' ⊢
  unfold Change.shiftAfter
  dsimp only
  by_cases hxy : isUpTo (some y) x = true
  · -- the new line takes a slot before that of `y`, so the one behind `y` moves
    have hne : x ≠ y := fun heq => hx (heq ▸ hy)
    have hij := lt_of_getElem?_lt h hix hjy (Nat.lt_of_le_of_ne (isUpTo_some.1 hxy) hne)
    rw [if_pos hxy] at hj ⊢
    rw [if_pos (by omega)]
  · rw [if_neg hxy, Nat.add_zero] at hi'
    rw [if_neg (fun hlt => hxy (hi'.1 hlt)), if_neg hxy, Nat.add_zero]

theorem shiftAfter_removed {ls : List Label} {i : Nat} {x : Label} (h : ls.Pairwise (· < ·))
    (hx : ls[i]? = some x) (a : Option Label) :
    (Change.removed i).shiftAfter (ls.countP (isUpTo a)) = (ls.eraseIdx i).countP (isUpTo a) := by
  have hi := lt_countP_iff h a hx
  have hcount := countP_eraseIdx (f := isUpTo a) hx
  unfold Change.shiftAfter
  dsimp only
  by_cases hxa : isUpTo a x = true
  · rw [if_pos (hi.2 hxa), hcount, if_pos hxa, Nat.add_sub_cancel]
  · rw [if_neg (fun hlt => hxa (hi.1 hlt)), hcount, if_neg hxa, Nat.add_zero]

/-- A change moves the slot behind a stored line along with that line, also if it erases the line. -/
theorem Alters.shiftAfter_countUpTo {p q : Program} {c : Change} (h : Alters p c q) (hp : p.Ascending)
    {a : Option Label} (ha : ∀ y ∈ a, y ∈ p.labels) : c.shiftAfter (p.countUpTo a) = q.countUpTo a := by
  have hq := h.ascending hp
  cases h with
  | unchanged => rfl
  | added line hn =>
    have hfree : p.freeSlot line.label ≤ p.labels.length := by
      rw [labels, List.length_map]
      exact freeSlot_le p line.label
    have hlabels : labels ⟨p.lines.insertIdx (p.freeSlot line.label) line⟩ =
        p.labels.insertIdx (p.freeSlot line.label) line.label := List.map_insertIdx _ _ _ _
    cases a with
    | none =>
      have hzero (r : Program) : r.countUpTo none = 0 := List.countP_eq_zero.2 (by simp [isUpTo])
      rw [hzero, hzero, Change.shiftAfter, if_neg (Nat.not_lt_zero _)]
    | some y =>
      have hnew : line.label ∉ p.labels := by
        intro hmem
        obtain ⟨l, hl, heq⟩ := List.mem_map.1 hmem
        exact slot?_eq_none hn l hl heq
      rw [countUpTo, countUpTo, hlabels]
      exact shiftAfter_added hfree (hlabels ▸ hq) hnew (ha y rfl)
  | updated line hi =>
    rw [countUpTo, countUpTo, labels, labels, map_label_set hi]
    rfl
  | @removed i label hi =>
    obtain ⟨l, hl, rfl⟩ := label_of_slot? hi
    have hlabels : labels ⟨p.lines.eraseIdx i⟩ = p.labels.eraseIdx i := (List.eraseIdx_map _ _ _).symm
    rw [countUpTo, countUpTo, hlabels]
    exact shiftAfter_removed hp (getElem?_labels hl) a

/-! ## The line behind a label -/

/-- `l` is the first line behind the label `a`, or the first of all. -/
structure Follows (p : Program) (a : Option Label) (l : Line) : Prop where
  mem : l ∈ p.lines
  above : isUpTo a l.label = false
  first : ∀ k ∈ p.lines, isUpTo a k.label = false → l.label ≤ k.label

/-- The line at the slot behind a label. -/
theorem follows_of_line? {p : Program} (h : p.Ascending) {a : Option Label} {l : Line}
    (hl : p.line? (p.countUpTo a) = some l) : p.Follows a l := by
  have hnot {i : Nat} {k : Line} (hk : p.line? i = some k) :
      isUpTo a k.label = false ↔ p.countUpTo a ≤ i := by
    rw [← Bool.not_eq_true, ← lt_countP_iff h a (getElem?_labels hk)]
    exact Nat.not_lt
  refine ⟨List.mem_of_getElem? hl, (hnot hl).2 (Nat.le_refl _), fun k hk hka => ?_⟩
  obtain ⟨i, hi⟩ := List.mem_iff_getElem?.1 hk
  refine Nat.le_of_not_lt (fun hlt => ?_)
  exact Nat.not_lt_of_le ((hnot hi).1 hka) (lt_of_getElem?_lt h (getElem?_labels hi) (getElem?_labels hl) hlt)

/-- Without a line behind a label, all are up to it. -/
theorem isUpTo_of_size_le {p : Program} {a : Option Label} (h : p.size ≤ p.countUpTo a) :
    ∀ k ∈ p.lines, isUpTo a k.label = true := by
  have hlength : p.labels.length = p.size := List.length_map _
  have hall := List.countP_eq_length.1 (Nat.le_antisymm List.countP_le_length (hlength ▸ h))
  exact fun k hk => hall k.label (List.mem_map_of_mem hk)

end Program

namespace Machine

/-! ## Open calls -/

/-- From `m` to `n`, the run goes on at the first line behind the label `a`. If there is none, it fails
on the line `label`. -/
inductive ResumesAfter (a label : Option Label) (m n : Machine) : Prop
  | line {l : Line} (follows : n.program.Follows a l) (at_cursor : n.program.line? n.cursor = some l)
      (running : n.isRunning = true) (direct : n.direct = none)
  | ended (none : ∀ k ∈ n.program.lines, Program.isUpTo a k.label = true)
      (stopped : n.status = .stopped)
      (error : n.events = m.events ++ [.error (Error.Cause.programEnd.error.onLine label)])

/-- The call at depth `d`, which the line `L` has opened, has been open up to the machine `m`. The
label `a` is `L` as long as that line is there; each time the line `a` is erased, it becomes the label
of the line before. -/
inductive Open (L : Label) (d : Nat) : Option Label → Machine → Prop
  | call {m : Machine} (ascending : m.program.Ascending) (line : m.upcomingLabel? = some L)
      (depth : m.depth = d) (opens : m.step.depth = d + 1) : Open L d (some L) m.step
  | step {a : Option Label} {m : Machine} : Open L d a m → d < m.step.depth → Open L d a m.step
  | submit {a : Option Label} {m : Machine} (text : String) :
      Open L d a m → Open L d (a.bind (m.submit text).2.program.greatest?) (m.submit text).2
  | fetch {a : Option Label} {m : Machine} : Open L d a m → Open L d a m.fetch?.2
  | breakOff {a : Option Label} {m : Machine} : Open L d a m → Open L d a m.breakOff

/-- The call at depth `d` returns to the slot behind the line `a`. -/
structure Anchored (L : Label) (d : Nat) (a : Option Label) (m : Machine) : Prop where
  ascending : m.program.Ascending
  stored : ∀ x ∈ a, x ∈ m.program.labels
  le : ∀ x ∈ a, x ≤ L
  back : m.calls.toList[d]? = some (.slot (m.program.countUpTo a))

theorem Anchored.congr {L : Label} {d : Nat} {a : Option Label} {m n : Machine} (h : Anchored L d a m)
    (hp : n.program = m.program) (hb : n.calls.toList[d]? = m.calls.toList[d]?) : Anchored L d a n where
  ascending := hp ▸ h.ascending
  stored := hp ▸ h.stored
  le := h.le
  back := by rw [hb, hp, h.back]

theorem anchored_of_call {L : Label} {d : Nat} {m : Machine} (hp : m.program.Ascending)
    (hline : m.upcomingLabel? = some L) (hd : m.depth = d) (hstep : m.step.depth = d + 1) :
    Anchored L d (some L) m.step := by
  unfold upcomingLabel? at hline
  split at hline
  · cases hline
  next hdirect =>
  obtain ⟨l, hl, rfl⟩ := Option.map_eq_some_iff.1 hline
  have hlabel := Program.getElem?_labels hl
  cases step_calls m with
  | kept hc =>
    rw [depth, hc, ← depth] at hstep
    omega
  | opened hc hprog =>
    -- the line at the cursor is the last of those up to its label
    have hback : m.back = .slot (m.program.countUpTo (some l.label)) := by
      rw [back, hdirect, Program.countUpTo_of_getElem? hp hlabel]
      rfl
    refine ⟨hprog ▸ hp, ?_, ?_, ?_⟩
    · rintro x ⟨⟩
      rw [hprog]
      exact List.mem_of_getElem? hlabel
    · rintro x ⟨⟩
      exact Nat.le_refl _
    · rw [Stack.toList_push hc, ← hd, depth, Stack.size_eq_length, List.getElem?_concat_length, hprog, hback]
  | closed hc =>
    have := Stack.size_of_pop hc
    rw [depth] at hd hstep
    omega
  | cleared hc =>
    rw [depth, hc] at hstep
    cases hstep

theorem Anchored.step {L : Label} {d : Nat} {a : Option Label} {m : Machine} (h : Anchored L d a m)
    (hd : d < m.step.depth) : Anchored L d a m.step := by
  have hm : d < m.calls.toList.length := (List.getElem?_eq_some_iff.1 h.back).1
  cases step_calls m with
  | kept hc hprog => exact h.congr hprog (by rw [hc])
  | opened hc hprog =>
    exact h.congr hprog (by rw [Stack.toList_push hc, List.getElem?_append_left hm])
  | closed hc hprog =>
    -- the call that is closed was opened later
    rw [depth, Stack.size_eq_length] at hd
    exact h.congr hprog (by rw [Stack.toList_pop hc, List.getElem?_append_left hd])
  | cleared hc =>
    rw [depth, hc] at hd
    cases hd

theorem Anchored.submit {L : Label} {d : Nat} {a : Option Label} {m : Machine} (h : Anchored L d a m)
    (text : String) :
    Anchored L d (a.bind (m.submit text).2.program.greatest?) (m.submit text).2 := by
  obtain ⟨c, hc⟩ := submit_revised m text
  generalize (m.submit text).2 = n at hc
  -- the slot behind `a` is now behind the greatest label up to `a` that is left
  have hcount : n.program.countUpTo (a.bind n.program.greatest?) = n.program.countUpTo a := by
    cases a with
    | none => rfl
    | some x => exact n.program.countUpTo_greatest? x
  have hgreatest {z : Label} (hz : z ∈ a.bind n.program.greatest?) :
      ∃ x ∈ a, z ≤ x ∧ z ∈ n.program.labels := by
    obtain ⟨x, hx, hz⟩ := Option.bind_eq_some_iff.1 hz
    obtain ⟨hle, hmem, -⟩ := Program.greatest?_eq_some hz
    exact ⟨x, hx, hle, hmem⟩
  refine ⟨hc.program.ascending h.ascending, fun z hz => ?_, fun z hz => ?_, ?_⟩
  · obtain ⟨-, -, -, hmem⟩ := hgreatest hz
    exact hmem
  · obtain ⟨x, hx, hle, -⟩ := hgreatest hz
    exact Nat.le_trans hle (h.le x hx)
  · rw [hc.calls, Stack.toList_map, List.getElem?_map, h.back, hcount,
      ← hc.program.shiftAfter_countUpTo h.ascending h.stored]
    rfl

/-- An open call returns to the slot behind the line `a`. -/
theorem Open.anchored {L : Label} {d : Nat} {a : Option Label} {m : Machine} (h : Open L d a m) :
    Anchored L d a m := by
  induction h with
  | call hp hline hd hstep => exact anchored_of_call hp hline hd hstep
  | step _ hd ih => exact ih.step hd
  | submit text _ ih => exact ih.submit text
  | @fetch _ m _ ih =>
    obtain ⟨es, hes⟩ := m.fetch?_snd
    rw [hes]
    exact ih.congr rfl rfl
  | @breakOff _ m _ ih =>
    rcases m.breakOff_eq with he | ⟨e, he⟩ <;> rw [he]
    · exact ih
    · exact ih.congr rfl rfl

/-! ## Returns -/

theorem exec_of_passes {m : Machine} {s : Statement} (h : m.passes s = true) :
    ∃ g, exec s m = exec s.core { m with generator := g } := by
  obtain ⟨g, hg⟩ := draws_conditions s m
  unfold passes at h
  cases hc : conditions s m with
  | error e n =>
    rw [hc] at h
    cases h
  | ok b n =>
    rw [hc] at h hg
    refine ⟨g, ?_⟩
    rw [exec_core, bind_of_ok hc, show n = _ from hg, show b = true from h]
    rfl

theorem exec_ret {s : Statement} (hs : s.keyword = .ret) {m : Machine} {back : ReturnPoint}
    {calls : Stack ReturnPoint} (hpop : m.calls.pop = .ok (back, calls)) :
    exec s m = .ok back.sequel { m with calls } := by
  obtain ⟨k, args, l⟩ := s
  cases hs
  rw [exec, bind_of_ok (closeCall_of_pop hpop)]
  cases back <;> rfl

/-- A step that executes a `RETURN` closes the innermost call, and moves to where it returns to. -/
theorem step_ret {m : Machine} {s : Statement} (hr : m.isRunning = true) (hs : m.upcoming? = some s)
    (hret : s.core.keyword = .ret) (hp : m.passes s = true) {slot : Nat} {calls : Stack ReturnPoint}
    (hpop : m.calls.pop = .ok (.slot slot, calls)) :
    ∃ g, m.step = { m with generator := g, calls, direct := none }.moveTo slot s.label := by
  obtain ⟨g, hg⟩ := exec_of_passes hp
  refine ⟨g, ?_⟩
  rw [step_eq_of_exec hr hs, hg, exec_ret hret (m := { m with generator := g }) hpop]
  rfl

theorem moveTo_resumesAfter {m n : Machine} (hp : n.program.Ascending) (hr : n.isRunning = true)
    (hd : n.direct = none) (he : n.events = m.events) (a label : Option Label) :
    ResumesAfter a label m (n.moveTo (n.program.countUpTo a) label) := by
  unfold moveTo
  dsimp only
  by_cases hlt : n.program.countUpTo a < n.program.size
  · rw [if_pos hlt]
    have hl : n.program.line? (n.program.countUpTo a) = some _ := List.getElem?_eq_getElem hlt
    exact .line (Program.follows_of_line? hp hl) hl hr hd
  · rw [if_neg hlt]
    exact .ended (Program.isUpTo_of_size_le (Nat.le_of_not_lt hlt)) rfl (congrArg (· ++ _) he)

/-- Going on behind `a` is going on behind `L` if and only if there is no line between them. -/
theorem ResumesAfter.iff {a label : Option Label} {L : Label} {m n : Machine}
    (h : ResumesAfter a label m n) (ha : ∀ x ∈ a, x ≤ L) :
    ResumesAfter (some L) label m n ↔
      ∀ l ∈ n.program.lines, l.label ≤ L → Program.isUpTo a l.label = true := by
  have hle {x : Label} (hx : Program.isUpTo a x = true) : x ≤ L := by
    cases a with
    | none => cases hx
    | some y => exact Nat.le_trans (Program.isUpTo_some.1 hx) (ha y rfl)
  constructor
  · intro hL l hl hlL
    cases h with
    | ended hall => exact hall l hl
    | line hfollows hcursor hr =>
      -- the run has gone on at one line, which cannot be up to `L` and above it
      cases hL with
      | ended _ hstop => simp [isRunning, hstop] at hr
      | line hfollows' hcursor' =>
        cases hcursor.symm.trans hcursor'
        by_contra hnot
        have hfirst := hfollows.first l hl (by simpa using hnot)
        have habove := hfollows'.above
        rw [← Bool.not_eq_true, Program.isUpTo_some] at habove
        exact habove (Nat.le_trans hfirst hlL)
  · intro hall
    cases h with
    | ended hall' hstop he =>
      exact .ended (fun k hk => Program.isUpTo_some.2 (hle (hall' k hk))) hstop he
    | @line l hfollows hcursor hr hd =>
      refine .line ⟨hfollows.mem, ?_, fun k hk hka => hfollows.first k hk ?_⟩ hcursor hr hd
      · by_contra hnot
        have := hall l hfollows.mem (Program.isUpTo_some.1 (by simpa using hnot))
        simp [hfollows.above] at this
      · by_contra hnot
        have := hle (by simpa using hnot)
        rw [← Bool.not_eq_true, Program.isUpTo_some] at hka
        exact hka this

/-- A `RETURN` goes on at the first line behind `a`, the line of the call or the one that the call fell
back to when that line was erased. This is the first line behind the label of the call if and only if
no line has come between the two since. -/
theorem return_iff {L : Label} {d : Nat} {a : Option Label} {m : Machine} {s : Statement}
    (h : Open L d a m) (hr : m.isRunning = true) (hs : m.upcoming? = some s)
    (hret : s.core.keyword = .ret) (hp : m.passes s = true) (hd : m.depth = d + 1) :
    m.step.depth = d ∧ m.step.program = m.program ∧
      ResumesAfter a s.label m m.step ∧
      (ResumesAfter (some L) s.label m m.step ↔
        ∀ l ∈ m.program.lines, l.label ≤ L → Program.isUpTo a l.label = true) := by
  have hanchor := h.anchored
  obtain ⟨calls, hpop, hsize⟩ := Stack.pop_of_getElem? hanchor.back hd
  obtain ⟨g, hstep⟩ := step_ret hr hs hret hp hpop
  let n := { m with generator := g, calls, direct := none }
  obtain ⟨hcalls, hprogram⟩ := moveTo_calls n (m.program.countUpTo a) s.label
  have hresumes : ResumesAfter a s.label m m.step :=
    hstep ▸ moveTo_resumesAfter (m := m) (n := n) hanchor.ascending hr rfl rfl a s.label
  rw [← hstep] at hcalls hprogram
  refine ⟨?_, hprogram, hresumes, ?_⟩
  · rw [depth, hcalls, ← hsize]
  · rw [hresumes.iff hanchor.le, hprogram]

/-- About to execute the `RETURN` of a call in the line 10. -/
def inCall : Machine :=
  ((((ofSeed 1).submit "10 GOSUB 30").2.submit "20 END").2.submit "30 RETURN").2.start.step

theorem open_inCall : Open 10 0 (some 10) inCall := by
  have hreach := ((((Reachable.fresh (.ofSeed 1)).submit "10 GOSUB 30").submit "20 END").submit "30 RETURN").start
  exact .call hreach.ascending (by decide +kernel) (by decide +kernel) (by decide +kernel)

/-- A line is entered before that of the call, which is then erased, and one more behind it. -/
def erased : Machine :=
  (((inCall.submit "5 REM").2.submit "10").2.submit "15 REM").2

theorem return_iff_erased :
    Open 10 0 (some 5) erased ∧ erased.isRunning = true ∧
      erased.upcoming? = some ⟨.ret, [], some 30⟩ ∧ erased.depth = 1 ∧ erased.step.depth = 0 ∧
      ResumesAfter (some 10) (some 30) erased erased.step ∧ erased.step.upcomingLabel? = some 15 := by
  have h := ((open_inCall.submit "5 REM").submit "10").submit "15 REM"
  obtain ⟨_, rfl, hopen⟩ : ∃ a, a = some 5 ∧ Open 10 0 a erased := ⟨_, by decide +kernel, h⟩
  have hr : erased.isRunning = true := by decide +kernel
  have hs : erased.upcoming? = some ⟨.ret, [], some 30⟩ := by decide +kernel
  have hd : erased.depth = 1 := by decide +kernel
  obtain ⟨hdepth, -, -, hiff⟩ := return_iff hopen hr hs rfl rfl hd
  exact ⟨hopen, hr, hs, hd, hdepth, hiff.2 (by decide +kernel), by decide +kernel⟩

/-- The line of the call is erased and entered again. -/
def reentered : Machine :=
  ((inCall.submit "10").2.submit "10 GOSUB 30").2

/-- A line that is erased and entered again goes behind the return point of its own call: the `RETURN`
leads back to it, and not to the line after it. -/
theorem return_before_call :
    reentered.Reachable ∧ Open 10 0 none reentered ∧ reentered.isRunning = true ∧
      reentered.upcoming? = some ⟨.ret, [], some 30⟩ ∧ reentered.depth = 1 ∧
      reentered.step.depth = 0 ∧ reentered.step.upcomingLabel? = some 10 ∧
      ¬ ResumesAfter (some 10) (some 30) reentered reentered.step := by
  have h := (open_inCall.submit "10").submit "10 GOSUB 30"
  obtain ⟨_, rfl, hopen⟩ : ∃ a, a = none ∧ Open 10 0 a reentered := ⟨_, by decide +kernel, h⟩
  have hlabel : (reentered.step.program.line? reentered.step.cursor).map Line.label = some 10 := by
    decide +kernel
  refine ⟨?_, hopen, by decide +kernel, by decide +kernel, by decide +kernel, by decide +kernel,
    by decide +kernel, fun hresumes => ?_⟩
  · exact ((((((Reachable.fresh (.ofSeed 1)).submit _).submit _).submit _).start.step.submit _).submit _)
  · cases hresumes with
    | ended _ hstop => exact absurd hstop (by decide +kernel)
    | line hfollows hcursor =>
      rw [hcursor] at hlabel
      have habove := hfollows.above
      rw [Option.some.inj hlabel] at habove
      cases habove

end Machine

end LineBasic
