/-
# Wide strings, and comparing strings

A wide string is a list of 16-bit units other than NUL. `strcmp` and `wstring_cmp` compare
unit by unit, by the unsigned values, with a proper beginning of a string before it.
-/

import BasC.Base.CString

namespace BasC

/-- A unit of a wide string: any `uint16_t` but the terminating NUL. -/
def WChar : Type := { unit : UInt16 // unit ≠ 0 }
  deriving DecidableEq

/-- What a `uint16_t *` points at, without its terminating NUL. -/
abbrev WString := List WChar

/-- The value of the unit. -/
def WChar.toNat (c : WChar) : ℕ := c.1.toNat

/-- The loop of a comparison: by the first units that differ, and then by the ends. -/
def compareUnits {κ : Type} (value : κ → ℕ) : List κ → List κ → ℤ
  | [], [] => 0
  | [], _ :: _ => -1
  | _ :: _, [] => 1
  | c :: a, d :: b =>
      if value c < value d then -1
      else if value d < value c then 1
      else compareUnits value a b

/-- `strcmp`, with the sign as its value. -/
def strcmp (a b : CString) : ℤ := compareUnits CChar.toNat a b

/-- `wstring_cmp`; a missing string is `NULL`. -/
def wstringCmp (a b : Option WString) : ℤ :=
  match a, b with
  | none, none => 0
  | none, some _ => 1
  | some _, none => -1
  | some a, some b => compareUnits WChar.toNat a b

theorem compareUnits_eq_zero_iff {κ : Type} {value : κ → ℕ} (hvalue : Function.Injective value)
    (a b : List κ) : compareUnits value a b = 0 ↔ a = b := by
  induction a generalizing b with
  | nil => cases b <;> simp [compareUnits]
  | cons c a ih =>
      cases b with
      | nil => simp [compareUnits]
      | cons d b =>
          rw [compareUnits, List.cons.injEq]
          split_ifs with hlt hgt
          · exact ⟨fun h => absurd h (by decide), fun h => absurd (h.1 ▸ hlt) (Nat.lt_irrefl _)⟩
          · exact ⟨fun h => absurd h (by decide), fun h => absurd (h.1 ▸ hgt) (Nat.lt_irrefl _)⟩
          · have hcd : c = d := hvalue (by omega)
            rw [ih, hcd]
            simp

theorem CChar.toNat_injective : Function.Injective CChar.toNat :=
  fun _ _ h => Subtype.ext (UInt8.toNat_inj.mp h)

theorem WChar.toNat_injective : Function.Injective WChar.toNat :=
  fun _ _ h => Subtype.ext (UInt16.toNat_inj.mp h)

theorem strcmp_eq_zero_iff (a b : CString) : strcmp a b = 0 ↔ a = b :=
  compareUnits_eq_zero_iff CChar.toNat_injective a b

theorem wstringCmp_eq_zero_iff (a b : WString) : wstringCmp (some a) (some b) = 0 ↔ a = b :=
  compareUnits_eq_zero_iff WChar.toNat_injective a b

theorem compareUnits_cons_le_zero_iff {κ : Type} (value : κ → ℕ) (c d : κ) (a b : List κ) :
    compareUnits value (c :: a) (d :: b) ≤ 0 ↔
      value c < value d ∨ (value c = value d ∧ compareUnits value a b ≤ 0) := by
  rw [compareUnits]
  split_ifs with hlt hgt
  · exact iff_of_true (by decide) (.inl hlt)
  · exact iff_of_false (by decide) (by omega)
  · have heq : value c = value d := by omega
    simp [heq]

/-- The other way round, a comparison has the opposite sign. -/
theorem compareUnits_swap {κ : Type} (value : κ → ℕ) (a b : List κ) :
    compareUnits value b a = -compareUnits value a b := by
  induction a generalizing b with
  | nil => cases b <;> rfl
  | cons c a ih =>
      cases b with
      | nil => rfl
      | cons d b =>
          rw [compareUnits, compareUnits, ih]
          split_ifs with hlt hgt
          · omega
          · rfl
          · rfl
          · rfl

theorem compareUnits_total {κ : Type} (value : κ → ℕ) (a b : List κ) :
    compareUnits value a b ≤ 0 ∨ compareUnits value b a ≤ 0 := by
  rw [compareUnits_swap value a b]
  omega

theorem compareUnits_trans {κ : Type} {value : κ → ℕ} {a b c : List κ}
    (hab : compareUnits value a b ≤ 0) (hbc : compareUnits value b c ≤ 0) :
    compareUnits value a c ≤ 0 := by
  induction a generalizing b c with
  | nil => cases c <;> simp [compareUnits]
  | cons x a ih =>
      cases b with
      | nil => exact absurd hab (Int.not_le.mpr Int.one_pos)
      | cons y b =>
          cases c with
          | nil => exact absurd hbc (Int.not_le.mpr Int.one_pos)
          | cons z c =>
              rw [compareUnits_cons_le_zero_iff] at hab hbc ⊢
              obtain hlt | ⟨heq, hab⟩ := hab
              · exact .inl (by omega)
              · obtain hlt | ⟨heq', hbc⟩ := hbc
                · exact .inl (by omega)
                · exact .inr ⟨heq.trans heq', ih hab hbc⟩

theorem compareUnits_antisymm {κ : Type} {value : κ → ℕ} (hvalue : Function.Injective value)
    {a b : List κ} (hab : compareUnits value a b ≤ 0) (hba : compareUnits value b a ≤ 0) :
    a = b := by
  rw [compareUnits_swap value a b] at hba
  exact (compareUnits_eq_zero_iff hvalue a b).mp (by omega)

/-- A comparison sees the values only. -/
theorem compareUnits_map {κ ι : Type} {value : κ → ℕ} {value' : ι → ℕ} {widen : κ → ι}
    (hwiden : ∀ c, value' (widen c) = value c) (a b : List κ) :
    compareUnits value' (a.map widen) (b.map widen) = compareUnits value a b := by
  induction a generalizing b with
  | nil => cases b <;> rfl
  | cons c a ih =>
      cases b with
      | nil => rfl
      | cons d b =>
          rw [List.map_cons, List.map_cons, compareUnits, compareUnits, hwiden, hwiden, ih]

end BasC
