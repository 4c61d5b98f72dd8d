/-
# Refinement of a component's runs

A component is driven by a list of operations. Each of them is undefined in the state it
meets, or gives an answer and the next state. A specification says which answers and which
next abstract states an operation may have. When every operation that a contract allows
keeps a relation between the states of the two, so does every run: the component answers
as the specification allows, and is never undefined.
-/

import Mathlib.Data.List.Basic

namespace BasC.Lib

variable {Op Out σ τ : Type*}

/-- The answers to a list of operations and the state behind them; `none` when one of them is
undefined. -/
def runOps (step : σ → Op → Option (Out × σ)) : List Op → σ → Option (List Out × σ)
  | [], s => some ([], s)
  | op :: ops, s =>
      (step s op).bind fun first =>
        (runOps step ops first.2).map fun rest => (first.1 :: rest.1, rest.2)

/-- The specification allows these answers to the operations, and the abstract state behind
them. -/
inductive Explains (spec : τ → Op → Out → τ → Prop) : τ → List Op → List Out → τ → Prop
  | nil (a : τ) : Explains spec a [] [] a
  | cons {a a' a'' : τ} {op : Op} {out : Out} {ops : List Op} {outs : List Out} :
      spec a op out a' → Explains spec a' ops outs a'' →
        Explains spec a (op :: ops) (out :: outs) a''

/-- Each operation of the list is allowed in the state it meets. -/
def Admissible (step : σ → Op → Option (Out × σ)) (allowed : σ → Op → Prop) :
    List Op → σ → Prop
  | [], _ => True
  | op :: ops, s =>
      allowed s op ∧ ∀ out s', step s op = some (out, s') → Admissible step allowed ops s'

/-- An operation allowed in related states is defined, answers as the specification allows,
and ends in related states. -/
def Refines (step : σ → Op → Option (Out × σ)) (spec : τ → Op → Out → τ → Prop)
    (allowed : σ → Op → Prop) (related : σ → τ → Prop) : Prop :=
  ∀ s a op, related s a → allowed s op →
    ∃ out s' a', step s op = some (out, s') ∧ spec a op out a' ∧ related s' a'

/-- **Refinement of runs.** -/
theorem Refines.run {step : σ → Op → Option (Out × σ)} {spec : τ → Op → Out → τ → Prop}
    {allowed : σ → Op → Prop} {related : σ → τ → Prop}
    (hrefines : Refines step spec allowed related) {ops : List Op} {s : σ} {a : τ}
    (hrelated : related s a) (hadmissible : Admissible step allowed ops s) :
    ∃ outs s' a', runOps step ops s = some (outs, s') ∧ Explains spec a ops outs a' ∧
      related s' a' := by
  induction ops generalizing s a with
  | nil => exact ⟨[], s, a, rfl, .nil a, hrelated⟩
  | cons op ops ih =>
      obtain ⟨hallowed, hrest⟩ := hadmissible
      obtain ⟨out, s', a', hstep, hspec, hrelated'⟩ := hrefines s a op hrelated hallowed
      obtain ⟨outs, s'', a'', hrun, hexplains, hrelated''⟩ := ih hrelated' (hrest out s' hstep)
      refine ⟨out :: outs, s'', a'', ?_, .cons hspec hexplains, hrelated''⟩
      simp [runOps, hstep, hrun]

/-- A component without a contract. -/
theorem admissible_true (step : σ → Op → Option (Out × σ)) (ops : List Op) (s : σ) :
    Admissible step (fun _ _ => True) ops s := by
  induction ops generalizing s with
  | nil => exact trivial
  | cons op ops ih => exact ⟨trivial, fun _ s' _ => ih s'⟩

/-- **Runs from related states.** When every operation of a list has related answers in related
states, and leads to related states, so has the list. -/
theorem runOps_rel {step : σ → Op → Option (Out × σ)} {rel : σ → σ → Prop}
    {answer : Out → Out → Prop} {ops : List Op}
    (hstep : ∀ op ∈ ops, ∀ s s', rel s s' →
      Option.Rel (fun out out' => answer out.1 out'.1 ∧ rel out.2 out'.2) (step s op) (step s' op))
    {s s' : σ} (hs : rel s s') :
    Option.Rel (fun out out' => List.Forall₂ answer out.1 out'.1 ∧ rel out.2 out'.2)
      (runOps step ops s) (runOps step ops s') := by
  induction ops generalizing s s' with
  | nil => exact .some ⟨.nil, hs⟩
  | cons op ops ih =>
      have hfirst := hstep op List.mem_cons_self s s' hs
      rw [runOps, runOps]
      cases hout : step s op with
      | none =>
          rw [hout] at hfirst
          cases hout' : step s' op with
          | none => exact .none
          | some out' =>
              rw [hout'] at hfirst
              cases hfirst
      | some out =>
          rw [hout] at hfirst
          cases hout' : step s' op with
          | none =>
              rw [hout'] at hfirst
              cases hfirst
          | some out' =>
              rw [hout'] at hfirst
              cases hfirst with
              | some hrel =>
                  have hrest := ih (fun op hop => hstep op (List.mem_cons_of_mem _ hop)) hrel.2
                  rw [Option.bind_some, Option.bind_some]
                  cases hrest' : runOps step ops out.2 <;>
                    cases hrest'' : runOps step ops out'.2 <;>
                    rw [hrest', hrest''] at hrest <;> cases hrest
                  · exact .none
                  · rename_i hboth
                    exact .some ⟨.cons hrel.1 hboth.1, hboth.2⟩

section InStep

variable {Op' Out' τ' : Type*} {spec : τ → Op → Out → τ → Prop}
  {spec' : τ' → Op' → Out' → τ' → Prop} {call : Op → Op' → Prop} {state : τ → τ'}
  {answer : Out → Out'}

/-- **Two specifications in step.** When corresponding operations in corresponding states have
corresponding answers and lead to corresponding states, so do lists of them. -/
theorem Explains.inStep {ops : List Op} {ops' : List Op'} {a a' : τ} {b : τ'}
    {outs : List Out} {outs' : List Out'} (hexplains : Explains spec a ops outs a')
    (hexplains' : Explains spec' (state a) ops' outs' b) (hcalls : List.Forall₂ call ops ops')
    (hstep : ∀ {op op'}, call op op' → ∀ {a a' b out out'}, spec a op out a' →
      spec' (state a) op' out' b → out' = answer out ∧ b = state a') :
    outs' = outs.map answer ∧ b = state a' := by
  induction hcalls generalizing a outs outs' with
  | nil =>
      cases hexplains
      cases hexplains'
      exact ⟨rfl, rfl⟩
  | cons hcall hcalls ih =>
      cases hexplains with
      | cons hspec hrest =>
          cases hexplains' with
          | cons hspec' hrest' =>
              obtain ⟨rfl, rfl⟩ := hstep hcall hspec hspec'
              obtain ⟨rfl, rfl⟩ := ih hrest hrest'
              exact ⟨rfl, rfl⟩

end InStep

end BasC.Lib
