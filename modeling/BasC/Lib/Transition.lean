/-
# Runs of a transition system

The states that a system goes through while steps with labels are taken one after the other.
A step lemma becomes a run lemma here: what every step preserves holds of every state
reached, and what every step preserves exactly under a condition holds of every state reached
exactly when every step taken meets the condition.
-/

import Mathlib.Data.List.Basic
import Mathlib.Data.List.Infix

namespace BasC.Lib

variable {σ ε : Type*}

/-- Steps from `s` with these labels lead to a state. -/
inductive Runs (step : σ → ε → σ → Prop) : σ → List ε → σ → Prop
  | nil (s : σ) : Runs step s [] s
  | cons {s t u : σ} {label : ε} {labels : List ε} (first : step s label t)
      (rest : Runs step t labels u) : Runs step s (label :: labels) u

namespace Runs

variable {step : σ → ε → σ → Prop} {s t u : σ} {labels : List ε}

theorem append_iff (before after : List ε) :
    Runs step s (before ++ after) u ↔ ∃ t, Runs step s before t ∧ Runs step t after u := by
  induction before generalizing s with
  | nil =>
      constructor
      · exact fun hruns => ⟨s, .nil s, hruns⟩
      · rintro ⟨t, hnil, hruns⟩
        cases hnil
        exact hruns
  | cons label before ih =>
      constructor
      · intro hruns
        cases hruns with
        | cons first rest =>
            obtain ⟨t, hbefore, hafter⟩ := ih.mp rest
            exact ⟨t, .cons first hbefore, hafter⟩
      · rintro ⟨t, hbefore, hafter⟩
        cases hbefore with
        | cons first rest => exact .cons first (ih.mpr ⟨t, rest, hafter⟩)

/-- What every step preserves holds where a run ends. -/
theorem invariant {inv : σ → Prop} (hstep : ∀ s label t, inv s → step s label t → inv t)
    (hruns : Runs step s labels t) (hs : inv s) : inv t := by
  induction hruns with
  | nil s => exact hs
  | cons first rest ih => exact ih (hstep _ _ _ hs first)

/-- What every step promises of its label holds of all labels of a run. -/
theorem forall_label {P : ε → Prop} (hstep : ∀ s label t, step s label t → P label)
    (hruns : Runs step s labels t) : ∀ label ∈ labels, P label := by
  induction hruns with
  | nil s => exact List.forall_mem_nil _
  | cons first rest ih => exact List.forall_mem_cons.mpr ⟨hstep _ _ _ first, ih⟩

/-- **A loop whose body is a step is a run.** When one turn takes a step labelled by its
input and by what it adds to the output, the loop is a run with one label for each input,
and its output is what the labels say, one after the other. -/
theorem of_foldl {τ α β : Type*} (body : τ → α → τ) (state : τ → σ) (output : τ → List β)
    {step : σ → α × List β → σ → Prop}
    (hbody : ∀ st x, ∃ part, step (state st) (x, part) (state (body st x)) ∧
      output (body st x) = output st ++ part) (st : τ) (xs : List α) :
    ∃ labels, labels.map Prod.fst = xs ∧
      Runs step (state st) labels (state (xs.foldl body st)) ∧
      output (xs.foldl body st) = output st ++ (labels.map Prod.snd).flatten := by
  induction xs generalizing st with
  | nil => exact ⟨[], rfl, .nil _, by simp⟩
  | cons x xs ih =>
      obtain ⟨part, hstep, hpart⟩ := hbody st x
      obtain ⟨labels, hinputs, hruns, houtput⟩ := ih (body st x)
      refine ⟨(x, part) :: labels, by simp [hinputs], .cons hstep hruns, ?_⟩
      rw [List.foldl_cons, houtput, hpart]
      simp

end Runs

/-- **An invariant of a run that may fail.** What every step with one of the labels keeps, when
it does not fail, holds where the run ends. -/
theorem foldlM_invariant {step : σ → ε → Option σ} {inv : σ → Prop} {labels : List ε}
    (hstep : ∀ label ∈ labels, ∀ s t, inv s → step s label = some t → inv t) {s t : σ} (hs : inv s)
    (hrun : labels.foldlM step s = some t) : inv t := by
  induction labels generalizing s with
  | nil => exact Option.some.inj hrun ▸ hs
  | cons label labels ih =>
      rw [List.foldlM_cons, Option.bind_eq_bind, Option.bind_eq_some_iff] at hrun
      obtain ⟨u, hfirst, hrest⟩ := hrun
      exact ih (fun label hlabel => hstep label (List.mem_cons_of_mem _ hlabel))
        (hstep label List.mem_cons_self s u hs hfirst) hrest

/-- Each label of a run that may fail is allowed in the state that it meets. -/
def AllowedRun (step : σ → ε → Option σ) (allowed : σ → ε → Prop) : List ε → σ → Prop
  | [], _ => True
  | label :: labels, s =>
      allowed s label ∧ ∀ t, step s label = some t → AllowedRun step allowed labels t

/-- **A run that does not fail.** When every allowed step from a state with the invariant comes to
such a state, so does every allowed run. -/
theorem foldlM_progress {step : σ → ε → Option σ} {allowed : σ → ε → Prop} {inv : σ → Prop}
    (hstep : ∀ s label, inv s → allowed s label → ∃ t, step s label = some t ∧ inv t)
    {labels : List ε} {s : σ} (hs : inv s) (hallowed : AllowedRun step allowed labels s) :
    ∃ t, labels.foldlM step s = some t ∧ inv t := by
  induction labels generalizing s with
  | nil => exact ⟨s, rfl, hs⟩
  | cons label labels ih =>
      obtain ⟨hlabel, hrest⟩ := hallowed
      obtain ⟨t, hfirst, ht⟩ := hstep s label hs hlabel
      obtain ⟨u, hrun, hu⟩ := ih ht (hrest t hfirst)
      refine ⟨u, ?_, hu⟩
      rw [List.foldlM_cons, hfirst]
      exact hrun

/-- What the labels of a run give, each by the labels in front of it. -/
def eachAfter {β : Type*} (give : List ε → ε → List β) : List ε → List ε → List β
  | _, [] => []
  | before, label :: labels => give before label ++ eachAfter give (before ++ [label]) labels

theorem eachAfter_concat {β : Type*} (give : List ε → ε → List β) (before labels : List ε)
    (label : ε) :
    eachAfter give before (labels ++ [label]) =
      eachAfter give before labels ++ give (before ++ labels) label := by
  induction labels generalizing before with
  | nil => simp [eachAfter]
  | cons first labels ih => simp [eachAfter, ih, List.append_assoc]

/-- **An invariant that a step keeps exactly under a condition** holds in every state that a
run goes through, if and only if every step of the run meets the condition. -/
theorem forall_foldl_iff {step : σ → ε → σ} {inv : σ → Prop} {ok : σ → ε → Prop}
    (hstep : ∀ s label, inv s → (inv (step s label) ↔ ok s label)) {s : σ} (hs : inv s)
    (labels : List ε) :
    (∀ before, before <+: labels → inv (before.foldl step s)) ↔
      ∀ before label, before ++ [label] <+: labels → ok (before.foldl step s) label := by
  constructor
  · intro hinv before label hbefore
    have hnext := hinv _ hbefore
    rw [List.foldl_append] at hnext
    exact (hstep _ _ (hinv before ((List.prefix_append _ _).trans hbefore))).mp hnext
  · intro hok before
    induction before using List.reverseRecOn with
    | nil => exact fun _ => hs
    | append_singleton before label ih =>
        intro hbefore
        rw [List.foldl_append]
        exact (hstep _ _ (ih ((List.prefix_append _ _).trans hbefore))).mpr (hok _ _ hbefore)

end BasC.Lib
