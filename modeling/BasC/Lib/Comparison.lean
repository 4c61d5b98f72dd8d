/-
# Comparison functions

A comparison function answers with the sign of an integer. When the signs are those of a
linear order on keys, the function orders its arguments as the keys are ordered.
-/

import Mathlib.Data.Int.Order.Basic
import Mathlib.Order.Lattice

namespace BasC.Lib

variable {α β : Type*} [LinearOrder β]

/-- The comparison is negative before, and positive behind. -/
structure ComparesBy (compare : α → α → ℤ) (key : α → β) : Prop where
  neg_iff : ∀ a b, compare a b < 0 ↔ key a < key b
  pos_iff : ∀ a b, 0 < compare a b ↔ key b < key a

namespace ComparesBy

variable {compare : α → α → ℤ} {key : α → β} (h : ComparesBy compare key)

include h

theorem nonpos_iff (a b : α) : compare a b ≤ 0 ↔ key a ≤ key b := by
  rw [← not_lt, h.pos_iff, not_lt]

theorem zero_iff (a b : α) : compare a b = 0 ↔ key a = key b := by
  rw [le_antisymm_iff, h.nonpos_iff, ← Int.not_lt, h.neg_iff, not_lt, ← le_antisymm_iff]

/-- Equal arguments only compare as equal where the keys tell all others apart. -/
theorem zero_iff_eq (hkey : Function.Injective key) (a b : α) : compare a b = 0 ↔ a = b := by
  rw [h.zero_iff, hkey.eq_iff]

/-- The other way round, a comparison has the opposite sign. -/
theorem sign_swap (a b : α) : (compare b a).sign = -(compare a b).sign := by
  obtain hlt | heq | hgt := lt_trichotomy (key a) (key b)
  · rw [Int.sign_eq_neg_one_of_neg ((h.neg_iff a b).mpr hlt),
      Int.sign_eq_one_of_pos ((h.pos_iff b a).mpr hlt), Int.neg_neg]
  · rw [(h.zero_iff a b).mpr heq, (h.zero_iff b a).mpr heq.symm, Int.sign_zero, Int.neg_zero]
  · rw [Int.sign_eq_one_of_pos ((h.pos_iff a b).mpr hgt),
      Int.sign_eq_neg_one_of_neg ((h.neg_iff b a).mpr hgt)]

theorem trans {a b c : α} (hab : compare a b ≤ 0) (hbc : compare b c ≤ 0) :
    compare a c ≤ 0 := by
  rw [h.nonpos_iff] at *
  exact le_trans hab hbc

end ComparesBy

end BasC.Lib
