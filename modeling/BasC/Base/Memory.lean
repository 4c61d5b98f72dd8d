/-
# Strings in memory

What is stored where a `char *` points. An object is an array of bytes, and a pointer is
an object with an index in it, so two pointers may share an array. Reading a string stops
at the first NUL. The end of an array counts as one.
-/

import BasC.Base.CString
import Mathlib.Logic.Function.Basic

namespace BasC

/-- A `char *` that is not `NULL`. -/
structure CPointer where
  object : ℕ
  offset : ℕ
  deriving DecidableEq

/-- Pointer arithmetic. -/
def CPointer.add (p : CPointer) (n : ℕ) : CPointer := ⟨p.object, p.offset + n⟩

theorem CPointer.add_add (p : CPointer) (m n : ℕ) : (p.add m).add n = p.add (m + n) := by
  simp [add, Nat.add_assoc]

theorem CPointer.add_injective (p : CPointer) : Function.Injective p.add := by
  intro m n h
  simpa [add] using h

/-- The string that begins an array. -/
def textOf : List UInt8 → CString
  | [] => []
  | byte :: bytes =>
      match CChar.ofByte? byte with
      | some c => c :: textOf bytes
      | none => []

/-- The bytes of a string. -/
def bytesOf (text : CString) : List UInt8 := text.map fun c => c.1

/-- The `char` arrays. -/
abbrev Memory := ℕ → List UInt8

namespace Memory

/-- The string at a pointer. -/
def read (memory : Memory) (p : CPointer) : CString := textOf ((memory p.object).drop p.offset)

/-- `*p = byte`. -/
def write (memory : Memory) (p : CPointer) (byte : UInt8) : Memory :=
  Function.update memory p.object ((memory p.object).set p.offset byte)

end Memory

theorem ofByte?_zero : CChar.ofByte? 0 = none := rfl

theorem ofByte?_eq_some {byte : UInt8} {c : CChar} (h : CChar.ofByte? byte = some c) :
    byte = c.1 := by
  unfold CChar.ofByte? at h
  split_ifs at h
  rw [← Option.some.inj h]

/-- A string ends at the NUL behind its bytes. -/
theorem textOf_bytesOf (text : CString) (rest : List UInt8) :
    textOf (bytesOf text ++ 0 :: rest) = text := by
  induction text with
  | nil => rfl
  | cons c text ih =>
      have hbyte : CChar.ofByte? c.1 = some c := dif_pos c.2
      rw [bytesOf, List.map_cons, List.cons_append, textOf]
      simp only [hbyte]
      rw [← bytesOf, ih]

theorem textOf_cons_eq {byte : UInt8} {bytes : List UInt8} {c : CChar} {text : CString}
    (h : textOf (byte :: bytes) = c :: text) : byte = c.1 ∧ textOf bytes = text := by
  cases hbyte : CChar.ofByte? byte with
  | none => simp [textOf, hbyte] at h
  | some d =>
      obtain ⟨rfl, rfl⟩ : d = c ∧ textOf bytes = text := by simpa [textOf, hbyte] using h
      exact ⟨ofByte?_eq_some hbyte, rfl⟩

theorem textOf_drop {bytes : List UInt8} {before after : CString}
    (h : textOf bytes = before ++ after) : textOf (bytes.drop before.length) = after := by
  induction before generalizing bytes with
  | nil => exact h
  | cons c before ih =>
      cases bytes with
      | nil => simp [textOf] at h
      | cons byte bytes => exact ih (textOf_cons_eq h).2

/-- The byte behind a piece of the string. -/
theorem textOf_getElem? {bytes : List UInt8} {before after : CString} {c : CChar}
    (h : textOf bytes = before ++ c :: after) : bytes[before.length]? = some c.1 := by
  induction before generalizing bytes with
  | nil =>
      cases bytes with
      | nil => simp [textOf] at h
      | cons byte bytes => simp [(textOf_cons_eq h).1]
  | cons d before ih =>
      cases bytes with
      | nil => simp [textOf] at h
      | cons byte bytes => simpa using ih (textOf_cons_eq h).2

/-- A NUL ends the string where it is written. -/
theorem textOf_set_zero {bytes : List UInt8} {before after : CString}
    (h : textOf bytes = before ++ after) : textOf (bytes.set before.length 0) = before := by
  induction before generalizing bytes with
  | nil => cases bytes <;> simp [textOf, ofByte?_zero]
  | cons c before ih =>
      cases bytes with
      | nil => simp [textOf] at h
      | cons byte bytes =>
          have hbyte : CChar.ofByte? byte = some c := by
            cases hbyte : CChar.ofByte? byte with
            | none => simp [textOf, hbyte] at h
            | some d => simpa [textOf, hbyte] using congrArg List.head? h
          simpa [textOf, hbyte] using ih (textOf_cons_eq h).2

namespace Memory

theorem read_add {memory : Memory} {p : CPointer} {before after : CString}
    (h : memory.read p = before ++ after) : memory.read (p.add before.length) = after := by
  rw [read, CPointer.add, ← List.drop_drop]
  exact textOf_drop h

/-- Writing a NUL cuts the string. -/
theorem read_write_zero {memory : Memory} {p : CPointer} {before after : CString}
    (h : memory.read p = before ++ after) :
    (memory.write (p.add before.length) 0).read p = before := by
  simp only [read, write, CPointer.add, Function.update_self]
  rw [List.drop_set, if_neg (by omega), Nat.add_sub_cancel_left]
  exact textOf_set_zero h

/-- A write does not change the string behind it. -/
theorem read_write_succ (memory : Memory) (p : CPointer) (byte : UInt8) :
    (memory.write p byte).read (p.add 1) = memory.read (p.add 1) := by
  simp only [read, write, CPointer.add, Function.update_self]
  rw [List.drop_set_of_lt (Nat.lt_succ_self _)]

/-- Writing the old byte back undoes a write. -/
theorem write_write {memory : Memory} {p : CPointer} {before after : CString} {c : CChar}
    (h : memory.read p = before ++ c :: after) (byte : UInt8) :
    (memory.write (p.add before.length) byte).write (p.add before.length) c.1 = memory := by
  have hold : (memory p.object)[p.offset + before.length]? = some c.1 := by
    rw [← List.getElem?_drop]
    exact textOf_getElem? h
  obtain ⟨hbound, hold⟩ := List.getElem?_eq_some_iff.mp hold
  simp only [write, CPointer.add, Function.update_self, Function.update_idem, List.set_set]
  rw [← hold, List.set_getElem_self hbound, Function.update_eq_self]

end Memory

end BasC
