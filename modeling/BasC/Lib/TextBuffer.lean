/-
# Buffers with a terminated text

A buffer is the list of its cells. A store behind its last cell is undefined, so a write that
does not fit has no outcome. A cell is a unit of text, or the terminator (`none`).
-/

import Mathlib.Data.List.Basic

namespace BasC.Lib

variable {κ α : Type*}

/-- A store into one cell. -/
def putCell (buffer : List κ) (pos : ℕ) (cell : κ) : Option (List κ) :=
  if pos < buffer.length then some (buffer.set pos cell) else none

/-- The stores of a loop that moves its position, and the position behind them. -/
def putCells : List κ → ℕ → List κ → Option (ℕ × List κ)
  | [], pos, buffer => some (pos, buffer)
  | cell :: cells, pos, buffer => (putCell buffer pos cell).bind (putCells cells (pos + 1))

theorem putCell_append (before : List κ) (old cell : κ) (rest : List κ) :
    putCell (before ++ old :: rest) before.length cell = some (before ++ cell :: rest) := by
  rw [putCell, if_pos (by simp)]
  simp

theorem putCell_end (buffer : List κ) (cell : κ) : putCell buffer buffer.length cell = none :=
  if_neg (Nat.lt_irrefl _)

/-- The cells replace those at the position, if there are enough of them. -/
theorem putCells_append (cells before rest : List κ) :
    putCells cells before.length (before ++ rest) =
      if cells.length ≤ rest.length then
        some ((before ++ cells).length, before ++ cells ++ rest.drop cells.length)
      else none := by
  induction cells generalizing before rest with
  | nil => simp [putCells]
  | cons cell cells ih =>
      cases rest with
      | nil =>
          rw [putCells, List.append_nil, putCell_end, Option.bind_none, if_neg (by simp)]
      | cons old rest =>
          have hnext := ih (before ++ [cell]) rest
          simp only [List.length_append, List.length_singleton, List.append_assoc,
            List.singleton_append] at hnext
          rw [putCells, putCell_append, Option.bind_some, hnext]
          simp only [List.length_cons, Nat.add_le_add_iff_right, List.drop_succ_cons,
            List.length_append, List.append_assoc, List.cons_append]

/-- The text in front of the first terminator. -/
def cellText : List (Option α) → Option (List α)
  | [] => none
  | none :: _ => some []
  | some unit :: rest => (cellText rest).map (unit :: ·)

@[simp] theorem cellText_append (text : List α) (rest : List (Option α)) :
    cellText (text.map some ++ none :: rest) = some text := by
  induction text with
  | nil => rfl
  | cons unit text ih => rw [List.map_cons, List.cons_append, cellText, ih, Option.map_some]

/-- The cells of a text and its terminator. -/
def terminated (text : List α) : List (Option α) := text.map some ++ [none]

@[simp] theorem length_terminated (text : List α) : (terminated text).length = text.length + 1 := by
  simp [terminated]

/-- A text and its terminator in place of the terminator of the text in the buffer. -/
def catText (text : List α) (buffer : List (Option α)) : Option (List (Option α)) :=
  (cellText buffer).bind fun old =>
    (putCells (terminated text) old.length buffer).map Prod.snd

/-- The text goes behind the one in the buffer, if there is room for it. -/
theorem catText_append (old text : List α) (rest : List (Option α)) :
    catText text (old.map some ++ none :: rest) =
      if text.length ≤ rest.length then
        some ((old ++ text).map some ++ none :: rest.drop text.length)
      else none := by
  have hput := putCells_append (terminated text) (old.map some) (none :: rest)
  rw [List.length_map] at hput
  rw [catText, cellText_append, Option.bind_some, hput, length_terminated, List.length_cons]
  split_ifs with hroom hroom'
  · rw [Option.map_some, terminated, List.map_append, List.drop_succ_cons]
    simp only [List.append_assoc, List.singleton_append]
  · omega
  · omega
  · rfl

end BasC.Lib
