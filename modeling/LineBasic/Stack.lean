import LineBasic.Error

/-!
# Bounded stacks

A stack holds at most `Stack.capacity` items. A push beyond that and a pop of the empty stack are
errors, which the stack's owner chooses.
-/
namespace LineBasic

structure Stack (α : Type) where
  /-- The detail of the error of a push onto a full stack. -/
  overflow : String
  /-- The error of a pop of an empty stack. -/
  underflow : Error.Code
  /-- The items, the last pushed first. -/
  items : List α
  size : Nat
  size_eq : size = items.length

namespace Stack

variable {α : Type}

def capacity : Nat := 65535

/-- The empty stack with its two errors. -/
def empty (overflow : String) (underflow : Error.Code) : Stack α :=
  { overflow, underflow, items := [], size := 0, size_eq := rfl }

def isEmpty (s : Stack α) : Bool :=
  s.size = 0

def clear (s : Stack α) : Stack α :=
  empty s.overflow s.underflow

def push (s : Stack α) (a : α) : Except Error (Stack α) :=
  if s.size < capacity then
    .ok { s with items := a :: s.items, size := s.size + 1, size_eq := by simp [s.size_eq] }
  else
    .error (Error.Cause.stackFull s.overflow).error

def pop (s : Stack α) : Except Error (α × Stack α) :=
  match h : s.items with
  | [] => .error { code := s.underflow }
  | a :: as => .ok (a, { s with items := as, size := s.size - 1, size_eq := by simp [s.size_eq, h] })

/-- Changes every item. -/
def map (s : Stack α) (f : α → α) : Stack α :=
  { s with items := s.items.map f, size_eq := by simp [s.size_eq] }

/-- The items from the bottom to the top. -/
def toList (s : Stack α) : List α :=
  s.items.reverse

def render (s : Stack α) (f : α → String) : String :=
  "[" ++ ", ".intercalate (s.toList.map f) ++ "]"

theorem size_eq_length (s : Stack α) : s.size = s.toList.length := by
  simp [toList, s.size_eq]

theorem pop_push {s t : Stack α} {a : α} (h : s.push a = .ok t) : t.pop = .ok (a, s) := by
  unfold push at h
  split at h
  · simp only [Except.ok.injEq] at h
    subst h
    rfl
  · simp at h

theorem toList_push {s t : Stack α} {a : α} (h : s.push a = .ok t) : t.toList = s.toList ++ [a] := by
  unfold push at h
  split at h
  · simp only [Except.ok.injEq] at h
    simp [← h, toList]
  · simp at h

theorem toList_map (s : Stack α) (f : α → α) : (s.map f).toList = s.toList.map f := by
  simp [map, toList]

end Stack

end LineBasic
