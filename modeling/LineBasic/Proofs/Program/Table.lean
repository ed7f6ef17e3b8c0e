import LineBasic.Proofs.Program.Store
import Mathlib.Data.Finmap

/-!
# The store is a table of lines

Seen from outside, the store is a finite map from labels to statements. Whatever is done to it, its
lines are the entries of that map in the order of their labels, a lookup finds what the map holds,
and the change that an operation returns says which slot it has touched (`refines_table`).
-/
namespace LineBasic

namespace Program

/-! ## Slots and labels -/

/-- No two lines have the same label. -/
theorem Ascending.slot_inj {p : Program} (h : p.Ascending) {i j : Nat} {a b : Line}
    (hi : p.line? i = some a) (hj : p.line? j = some b) (hab : a.label = b.label) : i = j := by
  have hnodup : (p.lines.map Line.label).Nodup := h.imp Nat.ne_of_lt
  have hlen : i < (p.lines.map Line.label).length := by
    rw [List.length_map]
    exact (List.getElem?_eq_some_iff.1 hi).1
  refine (List.getElem?_inj hlen hnodup).1 ?_
  rw [List.getElem?_map, List.getElem?_map, show p.lines[i]? = some a from hi,
    show p.lines[j]? = some b from hj, Option.map_some, Option.map_some, hab]

theorem Ascending.eq_of_label {p : Program} (h : p.Ascending) {a b : Line} (ha : a ∈ p.lines)
    (hb : b ∈ p.lines) (hab : a.label = b.label) : a = b := by
  obtain ⟨i, hi⟩ := List.mem_iff_getElem?.1 ha
  obtain ⟨j, hj⟩ := List.mem_iff_getElem?.1 hb
  obtain rfl := h.slot_inj hi hj hab
  exact Option.some.inj (hi.symm.trans hj)

theorem slot?_eq_some_iff {p : Program} (h : p.Ascending) {label : Label} {i : Nat} :
    p.slot? label = some i ↔ ∃ l, p.line? i = some l ∧ l.label = label := by
  constructor
  · exact label_of_slot?
  · rintro ⟨l, hl, rfl⟩
    cases hs : p.slot? l.label with
    | none => exact absurd rfl (slot?_eq_none hs l (List.mem_of_getElem? hl))
    | some j =>
      obtain ⟨k, hk, hlabel⟩ := label_of_slot? hs
      rw [h.slot_inj hk hl hlabel]

theorem guard_eq_some {c : Prop} [Decidable c] {u : Unit} : (guard c : Option Unit) = some u ↔ c := by
  unfold guard
  split
  · next hc => exact ⟨fun _ => hc, fun _ => rfl⟩
  · next hc =>
    constructor
    · intro h
      cases h
    · exact fun h => absurd h hc

theorem toNat_toInt_of_one_le {label : Int16} (h : 1 ≤ label) : (label.toInt.toNat : Int) = label.toInt := by
  have : (1 : Int16).toInt ≤ label.toInt := Int16.le_iff_toInt_le.1 h
  exact Int.toNat_of_nonneg (Int.le_trans (by decide) this)

/-- A jump leads to the line with its label, if that label was written. -/
theorem jump?_eq_some_iff {p : Program} (h : p.Ascending) {label : Int16} {i : Nat} :
    p.jump? label = some i ↔
      1 ≤ label ∧ ∃ l, p.line? i = some l ∧ (l.label : Int) = label.toInt ∧ l.written = true := by
  constructor
  · intro hj
    obtain ⟨_, hpos, hj⟩ := Option.bind_eq_some_iff.1 hj
    obtain ⟨j, hs, hj⟩ := Option.bind_eq_some_iff.1 hj
    obtain ⟨l, hl, hj⟩ := Option.bind_eq_some_iff.1 hj
    obtain ⟨_, hw, hj⟩ := Option.bind_eq_some_iff.1 hj
    cases hj
    rw [guard_eq_some] at hpos hw
    obtain ⟨k, hk, hlabel⟩ := label_of_slot? hs
    obtain rfl : k = l := Option.some.inj (hk.symm.trans hl)
    exact ⟨hpos, k, hk, by rw [hlabel, toNat_toInt_of_one_le hpos], hw⟩
  · rintro ⟨hpos, l, hl, hlabel, hw⟩
    have hs : p.slot? label.toInt.toNat = some i :=
      (slot?_eq_some_iff h).2 ⟨l, hl, Int.ofNat.inj (hlabel.trans (toNat_toInt_of_one_le hpos).symm)⟩
    refine Option.bind_eq_some_iff.2 ⟨(), guard_eq_some.2 hpos, ?_⟩
    refine Option.bind_eq_some_iff.2 ⟨i, hs, ?_⟩
    refine Option.bind_eq_some_iff.2 ⟨l, hl, ?_⟩
    exact Option.bind_eq_some_iff.2 ⟨(), guard_eq_some.2 hw, rfl⟩

theorem mem_set_iff {p : Program} (h : p.Ascending) {i : Nat} {old line : Line}
    (hi : p.line? i = some old) (hlabel : old.label = line.label) (x : Line) :
    x ∈ p.lines.set i line ↔ x = line ∨ (x ∈ p.lines ∧ x.label ≠ line.label) := by
  have hlen : i < p.lines.length := (List.getElem?_eq_some_iff.1 hi).1
  constructor
  · intro hx
    obtain ⟨j, hj⟩ := List.mem_iff_getElem?.1 hx
    rw [List.getElem?_set] at hj
    split at hj
    · exact .inl (Option.some.inj hj).symm
    · next hij =>
      exact .inr ⟨List.mem_of_getElem? hj, fun hx => hij (h.slot_inj hi hj (hlabel.trans hx.symm))⟩
  · rintro (rfl | ⟨hx, hne⟩)
    · exact List.mem_set hlen _
    · obtain ⟨j, hj⟩ := List.mem_iff_getElem?.1 hx
      refine List.mem_iff_getElem?.2 ⟨j, ?_⟩
      rw [List.getElem?_set, if_neg, hj]
      rintro rfl
      obtain rfl : old = x := Option.some.inj (hi.symm.trans hj)
      exact hne hlabel

theorem mem_eraseIdx_iff {p : Program} (h : p.Ascending) {i : Nat} {old : Line}
    (hi : p.line? i = some old) (x : Line) :
    x ∈ p.lines.eraseIdx i ↔ x ∈ p.lines ∧ x.label ≠ old.label := by
  rw [List.mem_eraseIdx_iff_getElem?]
  constructor
  · rintro ⟨j, hij, hj⟩
    exact ⟨List.mem_of_getElem? hj, fun hx => hij (h.slot_inj hj hi hx)⟩
  · rintro ⟨hx, hne⟩
    obtain ⟨j, hj⟩ := List.mem_iff_getElem?.1 hx
    refine ⟨j, ?_, hj⟩
    rintro rfl
    obtain rfl : old = x := Option.some.inj (hi.symm.trans hj)
    exact hne rfl

end Program

/-! ## Tables -/

/-- What a table holds under a label. -/
structure Entry where
  statement : Statement
  written : Bool

def Line.entry (l : Line) : Entry :=
  ⟨l.statement, l.written⟩

theorem Line.eq_of_entry {a b : Line} (hlabel : a.label = b.label) (he : a.entry = b.entry) : a = b := by
  obtain ⟨_, _, _⟩ := a
  obtain ⟨_, _, _⟩ := b
  cases hlabel
  cases he
  rfl

abbrev Table := Finmap fun _ : Label => Entry

/-- What can be done to a table. -/
inductive Update where
  | keep
  | store (line : Line)
  | delete (label : Label)
  | clear

/-- A line with a written label overwrites whatever is there. One with a made-up label is dropped if
a written one holds the label. -/
def Table.apply (t : Table) : Update → Table
  | .keep => t
  | .store line =>
    if line.written = false ∧ (t.lookup line.label).any (·.written) then t
    else t.insert line.label line.entry
  | .delete label => t.erase label
  | .clear => ∅

namespace Program

/-- The lines of the program are the entries of the table, in ascending order of their labels. -/
structure Lists (p : Program) (t : Table) : Prop where
  ascending : p.Ascending
  mem_iff : ∀ l : Line, l ∈ p.lines ↔ t.lookup l.label = some l.entry

theorem lists_empty : Lists {} ∅ where
  ascending := ascending_empty
  mem_iff l := by simp

/-- The entry under a label is that of the line with this label. -/
theorem Lists.lookup {p : Program} {t : Table} (h : Lists p t) {i : Nat} {l : Line}
    (hl : p.line? i = some l) : t.lookup l.label = some l.entry :=
  (h.mem_iff l).1 (List.mem_of_getElem? hl)

theorem Lists.lookup_eq_none {p : Program} {t : Table} (h : Lists p t) {label : Label}
    (hn : p.slot? label = none) : t.lookup label = none := by
  cases ht : t.lookup label with
  | none => rfl
  | some e => exact absurd rfl (slot?_eq_none hn ⟨label, e.written, e.statement⟩ ((h.mem_iff _).2 ht))

theorem lookup_insert_iff (t : Table) (line x : Line) :
    (t.insert line.label line.entry).lookup x.label = some x.entry ↔
      x = line ∨ (t.lookup x.label = some x.entry ∧ x.label ≠ line.label) := by
  by_cases hx : x.label = line.label
  · rw [hx, Finmap.lookup_insert]
    constructor
    · intro he
      exact .inl (Line.eq_of_entry hx (Option.some.inj he).symm)
    · rintro (rfl | ⟨-, hne⟩)
      · rfl
      · exact absurd rfl hne
  · rw [Finmap.lookup_insert_of_ne _ hx]
    constructor
    · exact fun he => .inr ⟨he, hx⟩
    · rintro (rfl | ⟨he, -⟩)
      · exact absurd rfl hx
      · exact he

theorem lookup_erase_iff (t : Table) (label : Label) (x : Line) :
    (t.erase label).lookup x.label = some x.entry ↔
      t.lookup x.label = some x.entry ∧ x.label ≠ label := by
  by_cases hx : x.label = label
  · rw [hx, Finmap.lookup_erase]
    simp
  · rw [Finmap.lookup_erase_ne hx]
    simp [hx]

/-! ## Operations -/

inductive Operation where
  | enter (s : Statement)
  | insert (label : Label) (s : Statement) (written : Bool)
  | remove (label : Label)
  | clear

/-- The line that is stored when a statement is put under a label. -/
def lineOf (label : Label) (s : Statement) (written : Bool) : Line :=
  ⟨label, written, { s with label := some label }⟩

def Operation.run (p : Program) : Operation → Option Change × Program
  | enter s => (some (p.apply s).1, (p.apply s).2)
  | insert label s written => (some (p.insert label s written).1, (p.insert label s written).2)
  | remove label => (some (p.erase label).1, (p.erase label).2)
  | clear => (none, empty)

/-- The update that an operation is. -/
def Operation.update : Operation → Update
  | enter s =>
    match s.label with
    | none => .keep
    | some label => if s.keyword = .blank then .delete label else .store (lineOf label s true)
  | insert label s written => .store (lineOf label s written)
  | remove label => .delete label
  | clear => .clear

/-- The change says how an update has made the lines of `q` out of those of `p`. -/
inductive Told (u : Update) (p : Program) : Change → Program → Prop
  | added {i : Nat} {line : Line} (store : u = .store line) (slot : i ≤ p.size) :
      Told u p (.added i) ⟨p.lines.insertIdx i line⟩
  | updated {i : Nat} {line : Line} (store : u = .store line) (slot : i < p.size) :
      Told u p (.updated i) ⟨p.lines.set i line⟩
  | removed {i : Nat} {label : Label} (delete : u = .delete label) (slot : i < p.size) :
      Told u p (.removed i) ⟨p.lines.eraseIdx i⟩
  | unchanged : Told u p .unchanged p

/-- The store after operations on the empty one. -/
def after (ops : List Operation) : Program :=
  ops.foldl (fun p op => (op.run p).2) empty

/-- The table after the updates that the operations are. -/
def tableAfter (ops : List Operation) : Table :=
  ops.foldl (fun t op => t.apply op.update) ∅

theorem insert_told (p : Program) (label : Label) (s : Statement) (written : Bool) :
    Told (.store (lineOf label s written)) p (p.insert label s written).1
      (p.insert label s written).2 := by
  unfold insert
  dsimp only
  split
  · next i hi =>
    split
    · exact .unchanged
    · exact .updated rfl (lt_size_of_slot? hi)
  · exact .added rfl (freeSlot_le p label)

theorem erase_told (p : Program) (label : Label) :
    Told (.delete label) p (p.erase label).1 (p.erase label).2 := by
  unfold erase
  split
  · next i hi => exact .removed rfl (lt_size_of_slot? hi)
  · exact .unchanged

theorem run_told (p : Program) (op : Operation) : ∀ c ∈ (op.run p).1, Told op.update p c (op.run p).2 := by
  intro c hc
  cases op with
  | enter s =>
    cases hc
    rw [Operation.run, Operation.update, apply]
    cases s.label with
    | none => exact .unchanged
    | some label =>
      dsimp only
      split
      · exact erase_told p label
      · exact insert_told p label s true
  | insert label s written =>
    cases hc
    exact insert_told p label s written
  | remove label =>
    cases hc
    exact erase_told p label
  | clear => cases hc

theorem Lists.insert {p : Program} {t : Table} (h : Lists p t) (label : Label) (s : Statement)
    (written : Bool) :
    Lists (p.insert label s written).2 (t.apply (.store (lineOf label s written))) := by
  refine ⟨(insert_alters p label s written).ascending h.ascending, fun x => ?_⟩
  rw [Table.apply]
  unfold Program.insert
  dsimp only
  split
  · next i hi =>
    obtain ⟨old, hold, hlabel⟩ := label_of_slot? hi
    have hlookup : t.lookup (lineOf label s written).label = some old.entry := by
      rw [← h.lookup hold, hlabel]
      rfl
    rw [hold, hlookup]
    by_cases hdrop : (lineOf label s written).written = false ∧ (some old.entry).any (·.written) = true
    · rw [if_pos hdrop, if_pos (by simpa [lineOf, Line.entry] using hdrop)]
      exact h.mem_iff x
    · rw [if_neg hdrop, if_neg (by simpa [lineOf, Line.entry] using hdrop), lookup_insert_iff, ← h.mem_iff]
      exact mem_set_iff h.ascending hold (hlabel.trans rfl) x
  · next hn =>
    have hnone : t.lookup (lineOf label s written).label = none := h.lookup_eq_none hn
    rw [hnone, if_neg (by simp), lookup_insert_iff, ← h.mem_iff, List.mem_insertIdx (freeSlot_le p label)]
    refine or_congr Iff.rfl ⟨fun hx => ⟨hx, slot?_eq_none hn x hx⟩, And.left⟩

theorem Lists.erase {p : Program} {t : Table} (h : Lists p t) (label : Label) :
    Lists (p.erase label).2 (t.apply (.delete label)) := by
  refine ⟨(erase_alters p label).ascending h.ascending, fun x => ?_⟩
  rw [Table.apply, lookup_erase_iff, ← h.mem_iff]
  unfold Program.erase
  split
  · next i hi =>
    obtain ⟨old, hold, rfl⟩ := label_of_slot? hi
    exact mem_eraseIdx_iff h.ascending hold x
  · next hn => exact ⟨fun hx => ⟨hx, slot?_eq_none hn x hx⟩, And.left⟩

theorem Lists.run {p : Program} {t : Table} (h : Lists p t) (op : Operation) :
    Lists (op.run p).2 (t.apply op.update) := by
  cases op with
  | enter s =>
    rw [Operation.run, Operation.update, Program.apply]
    cases s.label with
    | none => exact h
    | some label =>
      dsimp only
      split
      · exact h.erase label
      · exact h.insert label s true
  | insert label s written => exact h.insert label s written
  | remove label => exact h.erase label
  | clear => exact lists_empty

theorem lists_after (ops : List Operation) : Lists (after ops) (tableAfter ops) := by
  have hfold {p : Program} {t : Table} (h : Lists p t) :
      Lists (ops.foldl (fun p op => (op.run p).2) p) (ops.foldl (fun t op => t.apply op.update) t) := by
    induction ops generalizing p t with
    | nil => exact h
    | cons op ops ih => exact ih (h.run op)
  exact hfold lists_empty

/-- After any operations on the empty store, its lines are the entries of the table that the
operations describe, in ascending order of their labels. Labels and jumps lead to the lines that the
table holds, and the change that the next operation returns says what it has done to the lines. -/
theorem refines_table (ops : List Operation) :
    Lists (after ops) (tableAfter ops) ∧
      (∀ label i, (after ops).slot? label = some i ↔
        ∃ l, (after ops).line? i = some l ∧ l.label = label) ∧
      (∀ (label : Int16) i, (after ops).jump? label = some i ↔
        1 ≤ label ∧ ∃ l, (after ops).line? i = some l ∧ (l.label : Int) = label.toInt ∧
          l.written = true) ∧
      ∀ op : Operation, Lists (op.run (after ops)).2 ((tableAfter ops).apply op.update) ∧
        ∀ c ∈ (op.run (after ops)).1, Told op.update (after ops) c (op.run (after ops)).2 := by
  have h := lists_after ops
  refine ⟨h, fun label i => slot?_eq_some_iff h.ascending, fun label i => jump?_eq_some_iff h.ascending,
    fun op => ⟨h.run op, run_told (after ops) op⟩⟩

end Program

end LineBasic
