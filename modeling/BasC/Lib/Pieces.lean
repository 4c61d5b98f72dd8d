/-
# Pieces between separators

A list cut at the letters that satisfy a predicate. The pieces with one separator owed
each take exactly the room of the list with one more, so cutting pieces short, or cutting
at fewer letters, shows in a count.
-/

import Mathlib.Algebra.GroupWithZero.Nat
import Mathlib.Algebra.Order.BigOperators.Group.List

namespace BasC.Lib

universe u

variable {α β : Type u}

/-- The room a list of words takes when each word is followed by one separator. -/
def span (words : List (List α)) : ℕ := (words.map fun word => word.length + 1).sum

@[simp]
theorem span_nil : span ([] : List (List α)) = 0 := rfl

@[simp]
theorem span_cons (word : List α) (words : List (List α)) :
    span (word :: words) = word.length + 1 + span words := by
  simp [span]

@[simp]
theorem span_append (first second : List (List α)) :
    span (first ++ second) = span first + span second := by
  simp [span]

theorem span_map_map (f : α → β) (words : List (List α)) :
    span (words.map (List.map f)) = span words := by
  simp [span, Function.comp_def]

theorem length_le_span (words : List (List α)) : words.length ≤ span words := by
  induction words with
  | nil => simp
  | cons word words ih =>
      rw [List.length_cons, span_cons]
      omega

theorem length_lt_span {word : List α} {words : List (List α)} (hword : word ∈ words) :
    word.length < span words := by
  induction words with
  | nil => cases hword
  | cons first words ih =>
      rw [span_cons]
      rcases List.mem_cons.mp hword with rfl | hword
      · omega
      · have hrest := ih hword
        omega

/-- Words written behind one separator each take their room. -/
theorem length_flatMap_cons (b : α) (words : List (List α)) :
    (words.flatMap (b :: ·)).length = span words := by
  induction words with
  | nil => rfl
  | cons word words ih =>
      rw [List.flatMap_cons, List.length_append, List.length_cons, ih, span_cons]

theorem length_intercalate (b : α) {words : List (List α)} (hne : words ≠ []) :
    (List.intercalate [b] words).length + 1 = span words := by
  induction words with
  | nil => exact absurd rfl hne
  | cons word words ih =>
      cases words with
      | nil => simp [List.intercalate]
      | cons next words =>
          have htail := ih (by simp)
          simp only [List.intercalate, List.intersperse, List.flatten_cons, List.length_append,
            List.length_singleton, span_cons] at htail ⊢
          omega

/-- Shortening words one by one takes no more room. -/
theorem span_map_le {f : List α → List α} (hshort : ∀ word, (f word).length ≤ word.length)
    (words : List (List α)) : span (words.map f) ≤ span words := by
  induction words with
  | nil => simp
  | cons word words ih =>
      have hword := hshort word
      simp only [List.map_cons, span_cons]
      omega

/-- It takes the same room only when no word gets shorter. -/
theorem length_eq_of_span_map_eq {f : List α → List α} {words : List (List α)}
    (hshort : ∀ word, (f word).length ≤ word.length)
    (hspan : span words ≤ span (words.map f)) :
    ∀ word ∈ words, (f word).length = word.length := by
  induction words with
  | nil => simp
  | cons word words ih =>
      have hword := hshort word
      have hwords := span_map_le hshort words
      simp only [List.map_cons, span_cons] at hspan
      rw [List.forall_mem_cons]
      exact ⟨by omega, ih (by omega)⟩

theorem span_modifyHead_cons (c : α) {pieces : List (List α)} (hne : pieces ≠ []) :
    span (pieces.modifyHead (c :: ·)) = span pieces + 1 := by
  obtain ⟨piece, pieces, rfl⟩ := List.exists_cons_of_ne_nil hne
  simp only [List.modifyHead_cons, span_cons, List.length_cons]
  omega

/-- The pieces take the room of the list and of one more separator. -/
theorem span_splitOnP (p : α → Bool) (text : List α) :
    span (text.splitOnP p) = text.length + 1 := by
  induction text with
  | nil => simp
  | cons c text ih =>
      rw [List.splitOnP_cons_eq_if_modifyHead]
      split
      · rw [span_cons, ih, List.length_nil, List.length_cons]
        omega
      · rw [span_modifyHead_cons c (List.splitOnP_ne_nil p text), ih, List.length_cons]

/-- There is one piece more than there are separators. -/
theorem length_splitOnP (p : α → Bool) (text : List α) :
    (text.splitOnP p).length = text.countP p + 1 := by
  induction text with
  | nil => simp
  | cons c text ih =>
      rw [List.splitOnP_cons_eq_if_modifyHead, List.countP_cons]
      split <;> simp [ih]

/-- The first piece is the front of the list. -/
theorem isPrefix_of_splitOnP_eq_cons {p : α → Bool} {text piece : List α}
    {pieces : List (List α)} (hpieces : text.splitOnP p = piece :: pieces) : piece <+: text := by
  induction text generalizing piece pieces with
  | nil =>
      rw [List.splitOnP_nil] at hpieces
      obtain rfl : [] = piece := (List.cons.inj hpieces).1
      exact List.nil_prefix
  | cons c text ih =>
      rw [List.splitOnP_cons_eq_if_modifyHead] at hpieces
      split at hpieces
      · obtain rfl : [] = piece := (List.cons.inj hpieces).1
        exact List.nil_prefix
      · obtain ⟨first, others, hrest⟩ := List.exists_cons_of_ne_nil (List.splitOnP_ne_nil p text)
        rw [hrest, List.modifyHead_cons] at hpieces
        obtain rfl : c :: first = piece := (List.cons.inj hpieces).1
        exact (List.prefix_cons_inj c).mpr (ih hrest)

/-- Cutting a list of tagged letters and forgetting the tags. -/
theorem map_splitOnP (f : α → β) (p : β → Bool) (text : List α) :
    (text.splitOnP fun c => p (f c)).map (List.map f) = (text.map f).splitOnP p := by
  induction text with
  | nil => simp
  | cons c text ih =>
      rw [List.map_cons, List.splitOnP_cons_eq_if_modifyHead, List.splitOnP_cons_eq_if_modifyHead,
        ← ih]
      split
      · rfl
      · obtain ⟨piece, pieces, hpieces⟩ :=
          List.exists_cons_of_ne_nil (List.splitOnP_ne_nil (fun c => p (f c)) text)
        rw [hpieces]
        rfl

theorem splitOnP_congr {p q : α → Bool} {text : List α} (hsame : ∀ c ∈ text, p c = q c) :
    text.splitOnP p = text.splitOnP q := by
  induction text with
  | nil => rfl
  | cons c text ih =>
      rw [List.forall_mem_cons] at hsame
      rw [List.splitOnP_cons_eq_if_modifyHead, List.splitOnP_cons_eq_if_modifyHead, hsame.1,
        ih hsame.2]

/-- **Fewer separators, fewer pieces.** Cutting at some of the separators gives as many
pieces as cutting at all of them only when these are all. -/
theorem eq_of_length_splitOnP_eq {p q : α → Bool} {text : List α}
    (hsub : ∀ c ∈ text, p c = true → q c = true)
    (hlength : (text.splitOnP p).length = (text.splitOnP q).length) :
    ∀ c ∈ text, p c = q c := by
  rw [length_splitOnP, length_splitOnP] at hlength
  induction text with
  | nil => simp
  | cons c text ih =>
      rw [List.forall_mem_cons] at hsub
      have hcount : text.countP p ≤ text.countP q := List.countP_mono_left hsub.2
      rw [List.countP_cons, List.countP_cons] at hlength
      rw [List.forall_mem_cons]
      cases hp : p c with
      | true =>
          have hq := hsub.1 hp
          rw [hp, hq] at hlength
          exact ⟨hq.symm, ih hsub.2 (by omega)⟩
      | false =>
          cases hq : q c with
          | true =>
              rw [hp, hq] at hlength
              simp only [Bool.false_eq_true, if_false, if_true] at hlength
              omega
          | false =>
              rw [hp, hq] at hlength
              exact ⟨rfl, ih hsub.2 (by omega)⟩

end BasC.Lib
