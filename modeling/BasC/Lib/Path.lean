/-
# Paths as walks

A path is a text whose separators cut it into names. Repeated and trailing separators
count once, so a path denotes the walk that its non-empty names spell. Joining two paths
joins their walks, and cutting a path short keeps its walk exactly when nothing but
separators is lost.
-/

import Mathlib.Data.List.Basic

namespace BasC.Lib

universe u

variable {α : Type u} [DecidableEq α] (sep : α)

/-- The names a path walks through. -/
def components (path : List α) : List (List α) :=
  (path.splitOnP (· == sep)).filter fun name => !name.isEmpty

@[simp]
theorem components_nil : components sep [] = [] := rfl

/-- **Joining paths joins walks.** -/
theorem components_append_cons (first second : List α) :
    components sep (first ++ sep :: second) = components sep first ++ components sep second := by
  unfold components
  have hsep : decide (sep = sep) = true := decide_eq_true rfl
  rw [List.splitOnP_append_cons first second hsep, List.filter_append]

@[simp]
theorem components_cons_sep (path : List α) :
    components sep (sep :: path) = components sep path := by
  simpa using components_append_cons sep [] path

variable {sep} in
theorem components_of_not_mem {name : List α} (hne : name ≠ []) (hsep : sep ∉ name) :
    components sep name = [name] := by
  have hfree : ∀ c ∈ name, (c == sep) = false := by
    intro c hc
    have hcne : c ≠ sep := fun heq => hsep (heq ▸ hc)
    simpa using hcne
  simp [components, List.splitOnP_eq_singleton hfree, hne]

/-- The names of a path keep all its letters but the separators, in order. -/
theorem flatten_components (path : List α) :
    (components sep path).flatten = path.filter fun c => !(c == sep) := by
  unfold components
  rw [List.flatten_filter_not_isEmpty]
  induction path with
  | nil => rfl
  | cons c path ih =>
      rw [List.splitOnP_cons_eq_if_modifyHead]
      cases hc : c == sep with
      | true => simp [hc, ih]
      | false =>
          obtain ⟨name, names, hnames⟩ :=
            List.exists_cons_of_ne_nil (List.splitOnP_ne_nil (· == sep) path)
          rw [hnames] at ih ⊢
          simp only [List.flatten_cons] at ih
          simp [hc, ← ih]

/-- Separators behind a path do not move its walk. -/
theorem components_append_seps (path : List α) {seps : List α} (hseps : ∀ c ∈ seps, c = sep) :
    components sep (path ++ seps) = components sep path := by
  have hnone : ∀ seps : List α, (∀ c ∈ seps, c = sep) → components sep seps = [] := by
    intro seps hseps
    induction seps with
    | nil => rfl
    | cons c seps ih =>
        rw [hseps c (by simp), components_cons_sep]
        exact ih fun d hd => hseps d (by simp [hd])
  cases seps with
  | nil => rw [List.append_nil]
  | cons c seps =>
      rw [hseps c (by simp), components_append_cons,
        hnone seps fun d hd => hseps d (by simp [hd]), List.append_nil]

/-- **Cutting a path.** Its walk survives exactly when only separators are lost. -/
theorem components_take_eq_iff (path : List α) (n : ℕ) :
    components sep (path.take n) = components sep path ↔ ∀ c ∈ path.drop n, c = sep := by
  constructor
  · intro hsame c hc
    by_contra hne
    have hletters := congrArg List.flatten hsame
    rw [flatten_components, flatten_components] at hletters
    have hsplit : path.filter (fun d => !(d == sep)) =
        (path.take n).filter (fun d => !(d == sep)) ++
          (path.drop n).filter fun d => !(d == sep) := by
      rw [← List.filter_append, List.take_append_drop]
    rw [hsplit] at hletters
    have hnil : (path.drop n).filter (fun d => !(d == sep)) = [] :=
      List.self_eq_append_right.mp hletters
    have hmem : c ∈ (path.drop n).filter fun d => !(d == sep) := by
      simpa [hc] using hne
    rw [hnil] at hmem
    exact absurd hmem (by simp)
  · intro hseps
    calc
      components sep (path.take n) = components sep (path.take n ++ path.drop n) :=
        (components_append_seps sep _ hseps).symm
      _ = components sep path := by rw [List.take_append_drop]

end BasC.Lib
