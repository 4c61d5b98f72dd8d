/-
# Occurrences in a list

Where one list occurs in another, and the search for the first place. The empty list occurs
everywhere, the end of the text included. The search tries one place after the other, no
further than the wanted list still fits behind.
-/

import Mathlib.Data.List.Infix
import Mathlib.Order.Bounds.Defs
import Mathlib.Order.Lattice

namespace BasC.Lib

variable {α : Type*} {wanted text : List α} {index : ℕ}

/-- The wanted list is in the text at the index. -/
def OccursAt (wanted text : List α) (index : ℕ) : Prop :=
  index ≤ text.length ∧ wanted <+: text.drop index

theorem OccursAt.add_length_le (h : OccursAt wanted text index) :
    index + wanted.length ≤ text.length := by
  have hfits := h.2.length_le
  rw [List.length_drop] at hfits
  have hindex := h.1
  omega

/-- A list that occurs somewhere is a part of the text. -/
theorem exists_occursAt_iff : (∃ index, OccursAt wanted text index) ↔ wanted <:+: text := by
  constructor
  · rintro ⟨index, -, hoccurs⟩
    exact hoccurs.isInfix.trans (List.drop_suffix index text).isInfix
  · rintro ⟨before, after, rfl⟩
    refine ⟨before.length, by simp, ?_⟩
    rw [List.append_assoc, List.drop_left]
    exact List.prefix_append wanted after

/-- The first place at which the wanted list occurs. -/
def firstOccurrence [BEq α] (wanted text : List α) : Option ℕ :=
  (List.range (text.length + 1 - wanted.length)).find? fun index =>
    wanted.isPrefixOf (text.drop index)

section Search

variable [BEq α] [LawfulBEq α]

/-- The places that are tried are those at which the wanted list fits. -/
theorem occursAt_iff : OccursAt wanted text index ↔
    index < text.length + 1 - wanted.length ∧ wanted.isPrefixOf (text.drop index) = true := by
  rw [List.isPrefixOf_iff_prefix]
  constructor
  · intro h
    have hfits := h.add_length_le
    exact ⟨by omega, h.2⟩
  · rintro ⟨hindex, hoccurs⟩
    exact ⟨by omega, hoccurs⟩

/-- **The search finds the least place.** -/
theorem firstOccurrence_eq_some_iff : firstOccurrence wanted text = some index ↔
    IsLeast {index | OccursAt wanted text index} index := by
  rw [firstOccurrence, List.find?_range_eq_some, List.mem_range]
  constructor
  · rintro ⟨hoccurs, hindex, hearlier⟩
    refine ⟨occursAt_iff.mpr ⟨hindex, hoccurs⟩, fun other hother => ?_⟩
    by_contra hlt
    have hnot := hearlier other (Nat.not_le.mp hlt)
    rw [(occursAt_iff.mp hother).2] at hnot
    cases hnot
  · rintro ⟨hoccurs, hleast⟩
    obtain ⟨hindex, hbegins⟩ := occursAt_iff.mp hoccurs
    refine ⟨hbegins, hindex, fun earlier hearlier => ?_⟩
    rw [Bool.not_eq_true', Bool.eq_false_iff]
    intro hother
    have hle := hleast (occursAt_iff.mpr ⟨Nat.lt_trans hearlier hindex, hother⟩)
    omega

/-- The search finds nothing only where there is nothing. -/
theorem firstOccurrence_eq_none_iff :
    firstOccurrence wanted text = none ↔ ¬ wanted <:+: text := by
  rw [firstOccurrence, List.find?_range_eq_none, ← exists_occursAt_iff, not_exists]
  constructor
  · intro hnone index hoccurs
    obtain ⟨hindex, hbegins⟩ := occursAt_iff.mp hoccurs
    have hnot := hnone index hindex
    rw [hbegins] at hnot
    cases hnot
  · intro hnone index hindex
    rw [Bool.not_eq_true', Bool.eq_false_iff]
    exact fun hbegins => hnone index (occursAt_iff.mpr ⟨hindex, hbegins⟩)

/-- The empty list occurs at the front. -/
theorem firstOccurrence_nil (text : List α) : firstOccurrence [] text = some 0 := by
  rw [firstOccurrence_eq_some_iff]
  exact ⟨⟨Nat.zero_le _, List.nil_prefix⟩, fun _ _ => Nat.zero_le _⟩

end Search

end BasC.Lib
