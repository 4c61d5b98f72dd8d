/-
# The order of wide strings

What `wstring_cmp` and the comparison of `wstring_list_sort` order by: the units of the
strings, one after another, with a proper beginning of a string before it and `NULL` behind
all strings.
-/

import BasC.Base.TextListSequence
import BasC.Lib.Comparison
import Mathlib.Data.List.Lex
import Mathlib.Order.WithBot

namespace BasC

open Lib

theorem compareUnits_neg_iff {κ : Type} (value : κ → ℕ) (a b : List κ) :
    compareUnits value a b < 0 ↔ a.map value < b.map value := by
  induction a generalizing b with
  | nil => cases b <;> simp [compareUnits]
  | cons c a ih =>
      cases b with
      | nil => simp [compareUnits]
      | cons d b =>
          rw [compareUnits, List.map_cons, List.map_cons, List.cons_lt_cons_iff, ← ih]
          split_ifs with hlt hgt
          · exact iff_of_true (by decide) (.inl hlt)
          · exact iff_of_false (by decide) (by omega)
          · have heq : value c = value d := by omega
            simp [heq]

/-- A comparison unit by unit has the lexicographic order of the values. -/
theorem comparesBy_compareUnits {κ : Type} (value : κ → ℕ) :
    ComparesBy (compareUnits value) (List.map value) where
  neg_iff := compareUnits_neg_iff value
  pos_iff a b := by
    rw [← compareUnits_neg_iff, compareUnits_swap value a b]
    omega

/-- Where a wide string stands: by its units, and `NULL` behind every string. -/
def wideRank : Option WString → WithTop (List ℕ)
  | none => ⊤
  | some text => (text.map WChar.toNat : List ℕ)

theorem wideRank_injective : Function.Injective wideRank := by
  intro a b hrank
  cases a with
  | none =>
      cases b with
      | none => rfl
      | some b => exact absurd hrank.symm (WithTop.coe_ne_top)
  | some a =>
      cases b with
      | none => exact absurd hrank (WithTop.coe_ne_top)
      | some b =>
          have hunits := WithTop.coe_injective hrank
          rw [List.map_injective_iff.mpr WChar.toNat_injective hunits]

/-- `wstring_cmp` has the order of the ranks. -/
theorem comparesBy_wstringCmp : ComparesBy wstringCmp wideRank where
  neg_iff a b := by
    match a, b with
    | none, none => simp [wstringCmp]
    | none, some b => simp [wstringCmp, wideRank]
    | some a, none => simp [wstringCmp, wideRank]
    | some a, some b =>
        exact (compareUnits_neg_iff WChar.toNat a b).trans WithTop.coe_lt_coe.symm
  pos_iff a b := by
    match a, b with
    | none, none => simp [wstringCmp]
    | none, some b => simp [wstringCmp, wideRank]
    | some a, none => simp [wstringCmp, wideRank]
    | some a, some b =>
        exact ((comparesBy_compareUnits WChar.toNat).pos_iff a b).trans WithTop.coe_lt_coe.symm

/-- `wstring_compare`, the comparison that `wstring_list_sort` gives to `qsort`. -/
def wstringCompare (a b : wstringList.Slot) : ℤ := wstringList.compareSlots a b

theorem wstringCompare_eq (a b : wstringList.Slot) :
    wstringCompare a b = wstringCmp a.name b.name := by
  match a, b with
  | ⟨none, _⟩, ⟨none, _⟩ => rfl
  | ⟨none, _⟩, ⟨some _, _⟩ => rfl
  | ⟨some _, _⟩, ⟨none, _⟩ => rfl
  | ⟨some _, _⟩, ⟨some _, _⟩ => rfl

/-- The star as a wide unit. -/
def WChar.star : WChar := ⟨42, by decide⟩

/-- **`wstring_cmp` is a total order.** It has the sign of the lexicographic order of the units
with `NULL` last, and so its sign is antisymmetric, it is transitive, and it is zero for equal
contents only; and it is what the slots of a list are sorted by. -/
theorem wstringCmp_totalOrder :
    ComparesBy wstringCmp wideRank ∧
      (∀ a b, (wstringCmp b a).sign = -(wstringCmp a b).sign) ∧
      (∀ a b c, wstringCmp a b ≤ 0 → wstringCmp b c ≤ 0 → wstringCmp a c ≤ 0) ∧
      (∀ a b, wstringCmp a b = 0 ↔ a = b) ∧
      ∀ a b, wstringCompare a b = wstringCmp a.name b.name :=
  ⟨comparesBy_wstringCmp, comparesBy_wstringCmp.sign_swap,
    fun _ _ _ => comparesBy_wstringCmp.trans,
    comparesBy_wstringCmp.zero_iff_eq wideRank_injective, wstringCompare_eq⟩

/-- The empty string, a string that it begins, and `NULL`. -/
theorem wstringCmp_totalOrder_star : wstringCmp (some []) none ≤ 0 :=
  wstringCmp_totalOrder.2.2.1 (some []) (some [WChar.star]) none (by decide) (by decide)

end BasC
