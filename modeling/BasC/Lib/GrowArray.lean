/-
# Arrays that double when they are full

The growable arrays of a C program: a count, a capacity that doubles before a store that
would leave fewer than `slack` free slots, and the bound that keeps every store inside
the allocation. The bound is a field, so an array out of bounds cannot be built; `push`
carries it through one store and `pushAll` through a loop of stores.
-/

import Mathlib.Data.List.Basic

namespace BasC.Lib

universe u

/-- A growable array that always keeps `slack` slots free behind its items. -/
structure GrowArray (α : Type u) (slack : ℕ) where
  items : List α
  capacity : ℕ
  capacity_pos : 0 < capacity
  room : items.length + slack ≤ capacity

namespace GrowArray

variable {α : Type u} {slack : ℕ}

/-- A fresh allocation. -/
def empty (capacity : ℕ) (capacity_pos : 0 < capacity) (room : slack ≤ capacity) :
    GrowArray α slack :=
  ⟨[], capacity, capacity_pos, by simpa using room⟩

/-- The capacity at the moment of the next store: doubled when the array is full. -/
def grown (a : GrowArray α slack) : ℕ :=
  if a.capacity ≤ a.items.length + slack then a.capacity * 2 else a.capacity

/-- The next store is inside the allocation, with the slack still free behind it. -/
theorem length_add_slack_lt_grown (a : GrowArray α slack) :
    a.items.length + slack < a.grown := by
  have hpos := a.capacity_pos
  have hroom := a.room
  unfold grown
  split <;> omega

/-- Store one item behind the others, growing first when necessary. -/
def push (a : GrowArray α slack) (x : α) : GrowArray α slack where
  items := a.items ++ [x]
  capacity := a.grown
  capacity_pos := Nat.zero_lt_of_lt a.length_add_slack_lt_grown
  room := by
    have hstore := a.length_add_slack_lt_grown
    rw [List.length_append, List.length_singleton]
    omega

/-- Store several items one after the other. -/
def pushAll (a : GrowArray α slack) (xs : List α) : GrowArray α slack := xs.foldl push a

@[simp]
theorem empty_items (capacity : ℕ) (capacity_pos : 0 < capacity) (room : slack ≤ capacity) :
    (empty capacity capacity_pos room : GrowArray α slack).items = [] := rfl

@[simp]
theorem push_items (a : GrowArray α slack) (x : α) : (a.push x).items = a.items ++ [x] := rfl

@[simp]
theorem pushAll_items (a : GrowArray α slack) (xs : List α) :
    (a.pushAll xs).items = a.items ++ xs := by
  induction xs generalizing a with
  | nil => simp [pushAll]
  | cons x xs ih =>
      have htail := ih (a.push x)
      simpa [pushAll] using htail

end GrowArray

end BasC.Lib
