import LineBasic.Token.Basic

/-!
# The program store

A program is a list of lines in ascending order of their labels, which is the order of execution. A
line is addressed by its slot, its place in the list, or by its label. Every change of the store
says which slot it touched.
-/
namespace LineBasic

structure Line where
  label : Label
  /-- Whether the label was written with the line. One that was made up when a file was read is no
  target of a jump. -/
  written : Bool
  statement : Statement

/-- The line as a listing shows it. -/
def Line.render (l : Line) : String :=
  toString l.label ++ " " ++ l.statement.render

/-- What was done to the store, by slot. -/
inductive Change where
  | added (slot : Nat)
  | updated (slot : Nat)
  | removed (slot : Nat)
  | unchanged
deriving DecidableEq, Repr

structure Program where
  lines : List Line := []

namespace Program

def empty : Program := {}

def size (p : Program) : Nat :=
  p.lines.length

def isEmpty (p : Program) : Bool :=
  p.lines.isEmpty

def line? (p : Program) (slot : Nat) : Option Line :=
  p.lines[slot]?

/-- The slot of the line with a label. -/
def slot? (p : Program) (label : Label) : Option Nat :=
  p.lines.findIdx? (·.label = label)

/-- The slot that a new line with this label takes. -/
def freeSlot (p : Program) (label : Label) : Nat :=
  (p.lines.takeWhile (·.label < label)).length

/-- The slot to which a jump to `label` leads. -/
def jump? (p : Program) (label : Int16) : Option Nat := do
  guard (1 ≤ label)
  let slot ← p.slot? label.toInt.toNat
  let line ← p.line? slot
  guard line.written
  return slot

/-- Stores a statement under a label. A made-up label gives way to a written one. -/
def insert (p : Program) (label : Label) (s : Statement) (written : Bool) : Change × Program :=
  let line : Line := ⟨label, written, { s with label := some label }⟩
  match p.slot? label with
  | some i =>
    if !written && (p.line? i).any (·.written) then (.unchanged, p)
    else (.updated i, ⟨p.lines.set i line⟩)
  | none => (.added (p.freeSlot label), ⟨p.lines.insertIdx (p.freeSlot label) line⟩)

def erase (p : Program) (label : Label) : Change × Program :=
  match p.slot? label with
  | some i => (.removed i, ⟨p.lines.eraseIdx i⟩)
  | none => (.unchanged, p)

/-- Applies a typed line: a label alone erases, and a line without a label changes nothing. -/
def apply (p : Program) (s : Statement) : Change × Program :=
  match s.label with
  | none => (.unchanged, p)
  | some label => if s.keyword = .blank then p.erase label else p.insert label s true

theorem line?_eq_none {p : Program} {slot : Nat} : p.line? slot = none ↔ p.size ≤ slot := by
  simp [line?, size]

/-- The slot of a label holds a line with that label. -/
theorem label_of_slot? {p : Program} {label : Label} {slot : Nat} (h : p.slot? label = some slot) :
    ∃ l, p.line? slot = some l ∧ l.label = label := by
  obtain ⟨hlt, hl, -⟩ := List.findIdx?_eq_some_iff_getElem.1 h
  exact ⟨p.lines[slot], by simp [line?, hlt], by simpa using hl⟩

end Program

end LineBasic
