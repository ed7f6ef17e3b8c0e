import LineBasic.Error

/-!
# Variables

Twenty-six cells named `A` to `Z`. A cell holds nothing until a value is written to it.
-/
namespace LineBasic

structure Memory where
  cells : Vector (Option Int16) 26 := Vector.replicate 26 none
deriving DecidableEq, Repr

namespace Memory

def empty : Memory := {}

/-- The cell that a character names. -/
def cell? (name : Char) : Option (Fin 26) :=
  if h : 65 ≤ name.toNat ∧ name.toNat ≤ 90 then some ⟨name.toNat - 65, by omega⟩ else none

def read (m : Memory) (name : Char) : Except Error Int16 :=
  match cell? name with
  | none => .error (Error.Cause.notVariable name.toString).error
  | some i =>
    match m.cells.get i with
    | none => .error (Error.Cause.unset name.toString).error
    | some v => .ok v

def write (m : Memory) (name : Char) (v : Int16) : Except Error Memory :=
  match cell? name with
  | none => .error (Error.Cause.notVariable name.toString).error
  | some i => .ok { cells := m.cells.set i (some v) }

/-- The cells that hold a value, in the order of their names. -/
def toList (m : Memory) : List (Char × Int16) :=
  m.cells.toList.zipIdx.filterMap fun (v, i) => v.map (Char.ofNat (65 + i), ·)

theorem read_write {m m' : Memory} {name : Char} {v : Int16} (h : m.write name v = .ok m') :
    m'.read name = .ok v := by
  unfold write at h
  split at h
  · simp at h
  next i hi =>
    simp only [Except.ok.injEq] at h
    simp [← h, read, hi, Vector.get]

theorem read_empty {name : Char} {i : Fin 26} (h : cell? name = some i) :
    empty.read name = .error (Error.Cause.unset name.toString).error := by
  simp [empty, read, h, Vector.get]

end Memory

end LineBasic
