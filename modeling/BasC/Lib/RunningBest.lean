/-
# A running best

One pass over a list that keeps a best element: the first one, and then every one that
replaces the best so far. `List.argAux` is one step of it. Nothing is asked of the relation
but that it goes with a rank: an element that replaces an earlier one does not rank behind
it, and one that does not replace it does not rank before it.
-/

import Mathlib.Data.List.MinMax

namespace BasC.Lib

variable {α β : Type*} {replaces : α → α → Prop} [DecidableRel replaces]

theorem argAux_some (replaces : α → α → Prop) [DecidableRel replaces] (best x : α) :
    List.argAux replaces (some best) x = if replaces x best then some x else some best := rfl

theorem foldl_argAux_some (replaces : α → α → Prop) [DecidableRel replaces] (best : α)
    (xs : List α) : ∃ last, xs.foldl (List.argAux replaces) (some best) = some last := by
  induction xs generalizing best with
  | nil => exact ⟨best, rfl⟩
  | cons x xs ih =>
      by_cases hx : replaces x best
      · simpa [argAux_some, hx] using ih x
      · simpa [argAux_some, hx] using ih best

/-- The rank says of an earlier and a later element which one is kept. -/
def Ranks [LE β] (replaces : α → α → Prop) (rank : α → β) (earlier later : α) : Prop :=
  (replaces later earlier → rank later ≤ rank earlier) ∧
    (¬ replaces later earlier → rank earlier ≤ rank later)

/-- The best element of a list that follows another one. -/
theorem foldl_argAux_best [Preorder β] {rank : α → β} {best last : α} {xs : List α}
    (hranks : (best :: xs).Pairwise (Ranks replaces rank))
    (hfold : xs.foldl (List.argAux replaces) (some best) = some last) :
    last ∈ best :: xs ∧ ∀ x ∈ best :: xs, rank last ≤ rank x := by
  induction xs generalizing best with
  | nil =>
      obtain rfl := Option.some.inj hfold
      simp
  | cons x xs ih =>
      obtain ⟨hbest, hrest⟩ := List.pairwise_cons.mp hranks
      obtain ⟨hx, htail⟩ := List.pairwise_cons.mp hrest
      by_cases hreplaces : replaces x best
      · rw [List.foldl_cons, argAux_some, if_pos hreplaces] at hfold
        obtain ⟨hmem, hle⟩ := ih hrest hfold
        refine ⟨List.mem_cons_of_mem _ hmem, List.forall_mem_cons.mpr ⟨?_, hle⟩⟩
        exact (hle x List.mem_cons_self).trans ((hbest x List.mem_cons_self).1 hreplaces)
      · rw [List.foldl_cons, argAux_some, if_neg hreplaces] at hfold
        have hskip : (best :: xs).Pairwise (Ranks replaces rank) :=
          List.pairwise_cons.mpr ⟨fun y hy => hbest y (List.mem_cons_of_mem _ hy), htail⟩
        obtain ⟨hmem, hle⟩ := ih hskip hfold
        have hself := hle best List.mem_cons_self
        refine ⟨?_, ?_⟩
        · rcases List.mem_cons.mp hmem with rfl | hlast
          · exact List.mem_cons_self
          · exact List.mem_cons_of_mem _ (List.mem_cons_of_mem _ hlast)
        · rw [List.forall_mem_cons, List.forall_mem_cons]
          exact ⟨hself, hself.trans ((hbest x List.mem_cons_self).2 hreplaces),
            fun y hy => hle y (List.mem_cons_of_mem _ hy)⟩

/-- **The pass keeps an element of least rank**, and finds none in an empty list only. -/
theorem foldl_argAux_cases [Preorder β] {rank : α → β} {xs : List α}
    (hranks : xs.Pairwise (Ranks replaces rank)) :
    xs = [] ∧ xs.foldl (List.argAux replaces) none = none ∨
      ∃ last ∈ xs, xs.foldl (List.argAux replaces) none = some last ∧
        ∀ x ∈ xs, rank last ≤ rank x := by
  cases xs with
  | nil => exact .inl ⟨rfl, rfl⟩
  | cons x xs =>
      obtain ⟨last, hlast⟩ := foldl_argAux_some replaces x xs
      obtain ⟨hmem, hle⟩ := foldl_argAux_best hranks hlast
      exact .inr ⟨last, hmem, hlast, hle⟩

theorem foldl_argAux_of_not_replaces {best : α} {xs : List α}
    (hxs : ∀ x ∈ xs, ¬ replaces x best) :
    xs.foldl (List.argAux replaces) (some best) = some best := by
  induction xs with
  | nil => rfl
  | cons x xs ih =>
      rw [List.forall_mem_cons] at hxs
      rw [List.foldl_cons, argAux_some, if_neg hxs.1, ih hxs.2]

/-- **An element that replaces all in front of it**, and is not replaced by any behind it, is
what the pass keeps. -/
theorem foldl_argAux_split {before after : List α} {best : α}
    (hbefore : ∀ x ∈ before, replaces best x) (hafter : ∀ x ∈ after, ¬ replaces x best) :
    (before ++ best :: after).foldl (List.argAux replaces) none = some best := by
  have hranks : before.Pairwise (Ranks replaces fun _ => ()) :=
    List.pairwise_of_forall fun _ _ => ⟨fun _ => le_rfl, fun _ => le_rfl⟩
  rw [List.foldl_append, List.foldl_cons]
  rcases foldl_argAux_cases hranks with ⟨-, hnone⟩ | ⟨last, hlast, hsome, -⟩
  · rw [hnone]
    exact foldl_argAux_of_not_replaces hafter
  · rw [hsome, argAux_some, if_pos (hbefore last hlast)]
    exact foldl_argAux_of_not_replaces hafter

end BasC.Lib
