/-
# Programs that leave a trace

A traced program runs over a state, records events, and comes to its end with a value or
does not get there, which is how an undefined operation is modelled. The events recorded
before such an operation stay in the trace.

Two rules about whole runs are derived from their single steps. A property of traces that
holds of the empty trace and of the concatenation of two traces it holds of is kept by
sequencing. And two programs that differ only behind a first bad event leave the same
trace up to that event.
-/

import Mathlib.Data.List.Basic

namespace BasC.Lib

universe u

/-- A program over states `σ` that records events `ε`. Without a value at the end, the
program stopped at its last event. -/
def Traced (σ ε : Type u) (α : Type u) : Type u := σ → List ε × Option (α × σ)

namespace Traced

variable {σ ε α β : Type u}

/-- The events of a run. -/
def trace (m : Traced σ ε α) (s : σ) : List ε := (m s).1

/-- The value and the state at the end of a run. -/
def result (m : Traced σ ε α) (s : σ) : Option (α × σ) := (m s).2

protected def pure (a : α) : Traced σ ε α := fun s => ([], some (a, s))

protected def bind (m : Traced σ ε α) (next : α → Traced σ ε β) : Traced σ ε β := fun s =>
  match m s with
  | (events, none) => (events, none)
  | (events, some (a, s')) =>
      let rest := next a s'
      (events ++ rest.1, rest.2)

instance : Monad (Traced σ ε) where
  pure := Traced.pure
  bind := Traced.bind

/-- Record an event. -/
def emit (event : ε) : Traced σ ε PUnit := fun s => ([event], some (⟨⟩, s))

/-- Record an event and get no further. -/
def halt (event : ε) : Traced σ ε α := fun _ => ([event], none)

/-- The current state. -/
def current : Traced σ ε σ := fun s => ([], some (s, s))

/-- Replace the state, and hand on a value. -/
def update (f : σ → α × σ) : Traced σ ε α := fun s => ([], some (f s))

@[simp]
theorem result_pure (a : α) (s : σ) : (pure a : Traced σ ε α).result s = some (a, s) := rfl

@[simp]
theorem trace_pure (a : α) (s : σ) : (pure a : Traced σ ε α).trace s = [] := rfl

theorem result_bind (m : Traced σ ε α) (next : α → Traced σ ε β) (s : σ) :
    (m >>= next).result s = (m.result s).bind fun out => (next out.1).result out.2 := by
  show (m.bind next s).2 = (m s).2.bind _
  unfold Traced.bind
  split
  · rename_i hstopped
    rw [hstopped]
    rfl
  · rename_i hended
    rw [hended]
    rfl

theorem trace_bind (m : Traced σ ε α) (next : α → Traced σ ε β) (s : σ) :
    (m >>= next).trace s =
      m.trace s ++ (m.result s).elim [] fun out => (next out.1).trace out.2 := by
  show (m.bind next s).1 = (m s).1 ++ (m s).2.elim [] _
  unfold Traced.bind
  split
  · rename_i hstopped
    rw [hstopped]
    exact (List.append_nil _).symm
  · rename_i hended
    rw [hended]
    rfl

/-- The rest of a run whose first part came to its end. -/
theorem result_bind_of_eq {m : Traced σ ε α} {next : α → Traced σ ε β} {s s' : σ} {a : α}
    (hfirst : m.result s = some (a, s')) :
    (m >>= next).result s = (next a).result s' := by
  rw [result_bind, hfirst, Option.bind_some]

/-- A run whose first part stopped has stopped. -/
theorem result_bind_of_none {m : Traced σ ε α} {next : α → Traced σ ε β} {s : σ}
    (hfirst : m.result s = none) : (m >>= next).result s = none := by
  rw [result_bind, hfirst, Option.bind_none]

theorem trace_bind_of_eq {m : Traced σ ε α} {next : α → Traced σ ε β} {s s' : σ} {a : α}
    (hfirst : m.result s = some (a, s')) :
    (m >>= next).trace s = m.trace s ++ (next a).trace s' := by
  rw [trace_bind, hfirst, Option.elim_some]

theorem trace_bind_of_none {m : Traced σ ε α} {next : α → Traced σ ε β} {s : σ}
    (hfirst : m.result s = none) : (m >>= next).trace s = m.trace s := by
  rw [trace_bind, hfirst, Option.elim_none, List.append_nil]

@[simp]
theorem result_emit (event : ε) (s : σ) : (emit event).result s = some (⟨⟩, s) := rfl

@[simp]
theorem trace_emit (event : ε) (s : σ) : (emit event).trace s = [event] := rfl

@[simp]
theorem result_halt (event : ε) (s : σ) : (halt event : Traced σ ε α).result s = none := rfl

@[simp]
theorem trace_halt (event : ε) (s : σ) : (halt event : Traced σ ε α).trace s = [event] := rfl

@[simp]
theorem result_current (s : σ) : (current : Traced σ ε σ).result s = some (s, s) := rfl

@[simp]
theorem trace_current (s : σ) : (current : Traced σ ε σ).trace s = [] := rfl

@[simp]
theorem result_update (f : σ → α × σ) (s : σ) :
    (update f : Traced σ ε α).result s = some (f s) := rfl

@[simp]
theorem trace_update (f : σ → α × σ) (s : σ) : (update f : Traced σ ε α).trace s = [] := rfl

/-- Two programs are the same when they leave the same trace and result everywhere. -/
theorem ext {m m' : Traced σ ε α} (htrace : ∀ s, m.trace s = m'.trace s)
    (hresult : ∀ s, m.result s = m'.result s) : m = m' := by
  funext s
  exact Prod.ext (htrace s) (hresult s)

theorem pure_bind (a : α) (next : α → Traced σ ε β) :
    (pure a : Traced σ ε α) >>= next = next a := rfl

theorem bind_pure (m : Traced σ ε α) : (m >>= pure) = m := by
  refine ext (fun s => ?_) fun s => ?_
  · rw [trace_bind]
    cases m.result s with
    | none => exact List.append_nil _
    | some out => exact List.append_nil _
  · rw [result_bind]
    cases m.result s <;> rfl

theorem bind_assoc {γ : Type u} (m : Traced σ ε α) (next : α → Traced σ ε β)
    (last : β → Traced σ ε γ) : m >>= next >>= last = m >>= fun a => next a >>= last := by
  apply ext
  · intro s
    rw [trace_bind, trace_bind, trace_bind, result_bind, List.append_assoc]
    cases m.result s with
    | none => rfl
    | some out =>
        rw [Option.elim_some, Option.elim_some, Option.bind_some, trace_bind]
  · intro s
    rw [result_bind, result_bind, result_bind]
    cases m.result s with
    | none => rfl
    | some out =>
        rw [Option.bind_some, Option.bind_some, result_bind]

/-- The program with the hidden events left out of its trace. -/
def hide (hidden : ε → Bool) (m : Traced σ ε α) : Traced σ ε α := fun s =>
  ((m.trace s).filter fun event => !hidden event, m.result s)

@[simp]
theorem trace_hide (hidden : ε → Bool) (m : Traced σ ε α) (s : σ) :
    (m.hide hidden).trace s = (m.trace s).filter fun event => !hidden event := rfl

@[simp]
theorem result_hide (hidden : ε → Bool) (m : Traced σ ε α) (s : σ) :
    (m.hide hidden).result s = m.result s := rfl

@[simp]
theorem hide_pure (hidden : ε → Bool) (a : α) :
    (pure a : Traced σ ε α).hide hidden = pure a := rfl

/-- A hidden event is no event. -/
theorem hide_emit {hidden : ε → Bool} {event : ε} (hhidden : hidden event = true) :
    (emit event : Traced σ ε PUnit).hide hidden = pure ⟨⟩ := by
  apply ext
  · intro s
    simp [hhidden]
  · intro s
    rfl

/-- **Hiding goes through sequencing.** -/
theorem hide_bind (hidden : ε → Bool) (m : Traced σ ε α) (next : α → Traced σ ε β) :
    (m >>= next).hide hidden = m.hide hidden >>= fun a => (next a).hide hidden := by
  apply ext
  · intro s
    rw [trace_hide, trace_bind, trace_bind, trace_hide, result_hide, List.filter_append]
    cases m.result s <;> rfl
  · intro s
    rw [result_hide, result_bind, result_bind, result_hide]
    rfl

/-- A property of programs that sequencing keeps, and that programs without events have. -/
structure Sequential (R : ∀ α : Type u, Traced σ ε α → Prop) : Prop where
  pure : ∀ {α : Type u} (a : α), R α (Pure.pure a)
  current : R σ current
  update : ∀ {α : Type u} (f : σ → α × σ), R α (update f)
  bind : ∀ {α β : Type u} {m : Traced σ ε α} {next : α → Traced σ ε β},
    R α m → (∀ a, R β (next a)) → R β (m >>= next)

/-- A property of traces that single steps establish: it holds of the empty trace, and of
two traces one after the other. -/
structure Composable (P : List ε → Prop) : Prop where
  nil : P []
  append : ∀ {first second}, P first → P second → P (first ++ second)

/-- Every run leaves a trace with the property. -/
def Leaves (m : Traced σ ε α) (P : List ε → Prop) : Prop := ∀ s, P (m.trace s)

theorem leaves_emit {P : List ε → Prop} {event : ε} (hevent : P [event]) :
    (emit event : Traced σ ε PUnit).Leaves P := fun _ => hevent

/-- **The sequencing rule of traces.** -/
theorem Composable.sequential {P : List ε → Prop} (hP : Composable P) :
    Sequential fun (α : Type u) (m : Traced σ ε α) => m.Leaves P where
  pure := fun _ _ => hP.nil
  current := fun _ => hP.nil
  update := fun _ _ => hP.nil
  bind := by
    intro α β m next hm hnext s
    rw [trace_bind]
    cases m.result s with
    | none => simpa using hm s
    | some out => exact hP.append (hm s) (hnext out.1 out.2)

/-- When the run from `s` gets to its end, `Q` holds of its trace, its value and the state it
leaves. -/
def Ensures (m : Traced σ ε α) (s : σ) (Q : List ε → α → σ → Prop) : Prop :=
  ∀ a s', m.result s = some (a, s') → Q (m.trace s) a s'

theorem ensures_pure {Q : List ε → α → σ → Prop} {a : α} {s : σ} (hQ : Q [] a s) :
    (pure a : Traced σ ε α).Ensures s Q := by
  intro b s' hresult
  obtain ⟨rfl, rfl⟩ : a = b ∧ s = s' := by simpa using hresult
  exact hQ

theorem ensures_emit (event : ε) (s : σ) :
    (emit event : Traced σ ε PUnit).Ensures s fun events _ s' => events = [event] ∧ s = s' :=
  fun _ _ hresult => ⟨rfl, congrArg Prod.snd (Option.some.inj hresult)⟩

theorem Ensures.mono {Q R : List ε → α → σ → Prop} {m : Traced σ ε α} {s : σ}
    (hm : m.Ensures s Q) (himp : ∀ events a s', Q events a s' → R events a s') :
    m.Ensures s R :=
  fun a s' hresult => himp _ a s' (hm a s' hresult)

/-- A property of all traces holds at the end. -/
theorem Leaves.ensures {P : List ε → Prop} {m : Traced σ ε α} (hm : m.Leaves P) (s : σ) :
    m.Ensures s fun events _ _ => P events :=
  fun _ _ _ => hm s

/-- Two conditions that hold at the end hold together. -/
theorem Ensures.and {Q R : List ε → α → σ → Prop} {m : Traced σ ε α} {s : σ}
    (hQ : m.Ensures s Q) (hR : m.Ensures s R) :
    m.Ensures s fun events a s' => Q events a s' ∧ R events a s' :=
  fun a s' hresult => ⟨hQ a s' hresult, hR a s' hresult⟩

/-- Hidden events do not matter to a condition that does not look at them. -/
theorem ensures_hide_iff {hidden : ε → Bool} {Q : List ε → α → σ → Prop} {m : Traced σ ε α}
    {s : σ} (hQ : ∀ events a s', Q (events.filter fun event => !hidden event) a s' ↔
      Q events a s') : (m.hide hidden).Ensures s Q ↔ m.Ensures s Q := by
  constructor
  · intro hhide a s' hresult
    exact (hQ _ a s').mp (hhide a s' hresult)
  · intro hm a s' hresult
    exact (hQ _ a s').mpr (hm a s' hresult)

/-- **The sequencing rule of what holds at the end.** -/
theorem ensures_bind {Q : List ε → α → σ → Prop} {R : List ε → β → σ → Prop}
    {m : Traced σ ε α} {next : α → Traced σ ε β} {s : σ} (hm : m.Ensures s Q)
    (hnext : ∀ events a s', Q events a s' →
      (next a).Ensures s' fun rest b s'' => R (events ++ rest) b s'') :
    (m >>= next).Ensures s R := by
  intro b s'' hresult
  cases hfirst : m.result s with
  | none =>
      rw [result_bind_of_none hfirst] at hresult
      cases hresult
  | some out =>
      obtain ⟨a, s'⟩ := out
      rw [result_bind_of_eq hfirst] at hresult
      rw [trace_bind_of_eq hfirst]
      exact hnext _ a s' (hm a s' hfirst) b s'' hresult

/-! ## How often an event occurs -/

/-- No run leaves more than `limit` of the counted events. -/
def AtMost (counted : ε → Bool) (limit : ℕ) (m : Traced σ ε α) : Prop :=
  ∀ s, (m.trace s).countP counted ≤ limit

theorem atMost_pure (counted : ε → Bool) (limit : ℕ) (a : α) :
    AtMost counted limit (pure a : Traced σ ε α) := fun _ => Nat.zero_le _

theorem AtMost.mono {counted : ε → Bool} {limit limit' : ℕ} {m : Traced σ ε α}
    (hm : AtMost counted limit m) (hle : limit ≤ limit') : AtMost counted limit' m :=
  fun s => Nat.le_trans (hm s) hle

/-- Leaving out hidden events does not change the number of the counted ones, which are seen. -/
theorem countP_filter_not_hidden {counted hidden : ε → Bool}
    (hvisible : ∀ event, counted event = true → hidden event = false) (events : List ε) :
    (events.filter fun event => !hidden event).countP counted = events.countP counted := by
  rw [List.countP_filter]
  apply List.countP_congr
  intro event _
  rw [Bool.and_eq_true, Bool.not_eq_true']
  exact ⟨fun hboth => hboth.1, fun hcounted => ⟨hcounted, hvisible event hcounted⟩⟩

theorem atMost_hide_iff {counted hidden : ε → Bool}
    (hvisible : ∀ event, counted event = true → hidden event = false) {limit : ℕ}
    {m : Traced σ ε α} : AtMost counted limit (m.hide hidden) ↔ AtMost counted limit m := by
  unfold AtMost
  simp only [trace_hide, countP_filter_not_hidden hvisible]

/-- **The sequencing rule of counts.** -/
theorem atMost_bind {counted : ε → Bool} {limit limit' : ℕ} {m : Traced σ ε α}
    {next : α → Traced σ ε β} (hm : AtMost counted limit m)
    (hnext : ∀ a, AtMost counted limit' (next a)) :
    AtMost counted (limit + limit') (m >>= next) := by
  intro s
  rw [trace_bind, List.countP_append]
  cases m.result s with
  | none => exact Nat.le_trans (hm s) (Nat.le_add_right _ _)
  | some out => exact Nat.add_le_add (hm s) (hnext out.1 out.2)

/-- No counted event at all. -/
theorem Leaves.atMost {counted : ε → Bool} {m : Traced σ ε α}
    (hm : m.Leaves fun events => ∀ event ∈ events, counted event = false) :
    AtMost counted 0 m := by
  intro s
  have hzero : (m.trace s).countP counted = 0 :=
    List.countP_eq_zero.mpr fun event hevent => Bool.eq_false_iff.mp (hm s event hevent)
  exact Nat.le_of_eq hzero

/-- A run gets to its end exactly when all its events are good. -/
def EndsIff (good : ε → Prop) (m : Traced σ ε α) : Prop :=
  ∀ s, m.result s ≠ none ↔ ∀ event ∈ m.trace s, good event

theorem endsIff_emit {good : ε → Prop} {event : ε} (hevent : good event) :
    EndsIff good (emit event : Traced σ ε PUnit) := by
  intro s
  simp [hevent]

/-- **The sequencing rule of ends.** -/
theorem sequential_endsIff (good : ε → Prop) :
    Sequential fun (α : Type u) (m : Traced σ ε α) => EndsIff good m where
  pure := fun a s => by simp
  current := fun s => by simp
  update := fun f s => by simp
  bind := by
    intro α β m next hm hnext s
    cases hfirst : m.result s with
    | none =>
        rw [result_bind_of_none hfirst, trace_bind_of_none hfirst, ← hm s, hfirst]
        exact iff_of_false (fun hne => hne rfl) fun hne => hne rfl
    | some out =>
        obtain ⟨a, s'⟩ := out
        have hends : ∀ event ∈ m.trace s, good event := by
          rw [← hm s, hfirst]
          exact Option.some_ne_none _
        rw [result_bind_of_eq hfirst, trace_bind_of_eq hfirst, List.forall_mem_append, hnext a s']
        exact ⟨fun hrest => ⟨hends, hrest⟩, fun hboth => hboth.2⟩

/-- The run from `s` gets to its end in `s'` with the value, and its trace has the property. -/
structure Returns (m : Traced σ ε α) (P : List ε → Prop) (s : σ) (a : α) (s' : σ) : Prop where
  result_eq : m.result s = some (a, s')
  trace_has : P (m.trace s)

theorem Composable.returns_pure {P : List ε → Prop} (hP : Composable P) (a : α) (s : σ) :
    (pure a : Traced σ ε α).Returns P s a s :=
  ⟨rfl, hP.nil⟩

/-- **The sequencing rule of runs that return.** -/
theorem Composable.returns_bind {P : List ε → Prop} (hP : Composable P) {m : Traced σ ε α}
    {next : α → Traced σ ε β} {s s' s'' : σ} {a : α} {b : β} (hm : m.Returns P s a s')
    (hnext : (next a).Returns P s' b s'') : (m >>= next).Returns P s b s'' := by
  constructor
  · rw [result_bind_of_eq hm.result_eq]
    exact hnext.result_eq
  · rw [trace_bind_of_eq hm.result_eq]
    exact hP.append hm.trace_has hnext.trace_has

/-- From related states, the runs leave the same trace, and they get to their ends together, with
the same value and in related states. -/
def Respects (rel : σ → σ → Prop) (m : Traced σ ε α) : Prop :=
  ∀ s s', rel s s' → m.trace s = m.trace s' ∧
    Option.Rel (fun out out' => out.1 = out'.1 ∧ rel out.2 out'.2) (m.result s) (m.result s')

section Respects

variable {rel : σ → σ → Prop}

theorem respects_pure (a : α) : (pure a : Traced σ ε α).Respects rel :=
  fun _ _ hs => ⟨rfl, .some ⟨rfl, hs⟩⟩

theorem respects_emit (event : ε) : (emit event : Traced σ ε PUnit).Respects rel :=
  fun _ _ hs => ⟨rfl, .some ⟨rfl, hs⟩⟩

theorem respects_halt (event : ε) : (halt event : Traced σ ε α).Respects rel :=
  fun _ _ _ => ⟨rfl, .none⟩

theorem respects_update {f : σ → α × σ}
    (hf : ∀ s s', rel s s' → (f s).1 = (f s').1 ∧ rel (f s).2 (f s').2) :
    (update f : Traced σ ε α).Respects rel :=
  fun s s' hs => ⟨rfl, .some (hf s s' hs)⟩

/-- **The sequencing rule of related states.** -/
theorem respects_bind {m : Traced σ ε α} {next : α → Traced σ ε β} (hm : m.Respects rel)
    (hnext : ∀ a, (next a).Respects rel) : (m >>= next).Respects rel := by
  intro s s' hs
  obtain ⟨htrace, hresult⟩ := hm s s' hs
  rw [trace_bind, trace_bind, result_bind, result_bind, htrace]
  cases hfirst : m.result s with
  | none =>
      rw [hfirst] at hresult
      cases hfirst' : m.result s' with
      | none => exact ⟨rfl, .none⟩
      | some out' =>
          rw [hfirst'] at hresult
          cases hresult
  | some out =>
      rw [hfirst] at hresult
      cases hfirst' : m.result s' with
      | none =>
          rw [hfirst'] at hresult
          cases hresult
      | some out' =>
          rw [hfirst'] at hresult
          cases hresult with
          | some hout =>
              obtain ⟨a, t⟩ := out
              obtain ⟨a', t'⟩ := out'
              obtain ⟨rfl, ht⟩ := hout
              have hrest := hnext a t t' ht
              exact ⟨congrArg (m.trace s' ++ ·) hrest.1, hrest.2⟩

end Respects

/-- Every run that fails announces it by its last event, and by no other. A run that does not
fail announces nothing. -/
def Announces (loud : ε → Prop) (fails : α → Prop) (m : Traced σ ε α) : Prop :=
  ∀ s, ((∀ e ∈ m.trace s, ¬ loud e) ∧ ∀ a s', m.result s = some (a, s') → ¬ fails a) ∨
    ∃ before event a s', m.trace s = before ++ [event] ∧ (∀ e ∈ before, ¬ loud e) ∧ loud event ∧
      m.result s = some (a, s') ∧ fails a

section Announces

variable {loud : ε → Prop} {fails : α → Prop} {fails' : β → Prop}

theorem announces_pure {a : α} (ha : ¬ fails a) :
    Announces loud fails (pure a : Traced σ ε α) := by
  refine fun s => .inl ⟨by simp, fun b s' hresult => ?_⟩
  obtain ⟨rfl, -⟩ := Prod.mk.inj (Option.some.inj hresult)
  exact ha

/-- A program that announces nothing, and whose values are no failures. -/
theorem announces_of_quiet {m : Traced σ ε α}
    (hquiet : m.Leaves fun events => ∀ e ∈ events, ¬ loud e) :
    Announces loud (fun _ => False) m :=
  fun s => .inl ⟨hquiet s, fun _ _ _ => not_false⟩

/-- **The sequencing rule of announced failures.** Nothing happens behind a failure. -/
theorem announces_bind {m : Traced σ ε α} {next : α → Traced σ ε β} (hm : Announces loud fails m)
    (hfailed : ∀ a, fails a → ∃ b, next a = pure b ∧ fails' b)
    (hnext : ∀ a, ¬ fails a → Announces loud fails' (next a)) :
    Announces loud fails' (m >>= next) := by
  intro s
  rcases hm s with ⟨hquiet, hends⟩ | ⟨before, event, a, s', htrace, hquiet, hloud, hresult, ha⟩
  · cases hfirst : m.result s with
    | none =>
        rw [trace_bind_of_none hfirst, result_bind_of_none hfirst]
        exact .inl ⟨hquiet, fun b s' hnone => by cases hnone⟩
    | some out =>
        obtain ⟨a, s'⟩ := out
        rw [trace_bind_of_eq hfirst, result_bind_of_eq hfirst]
        rcases hnext a (hends a s' hfirst) s' with
          ⟨hrest, hdone⟩ | ⟨before, event, b, s'', htrace, hrest, hloud, hresult, hb⟩
        · exact .inl ⟨List.forall_mem_append.mpr ⟨hquiet, hrest⟩, hdone⟩
        · refine .inr ⟨m.trace s ++ before, event, b, s'', ?_, ?_, hloud, hresult, hb⟩
          · rw [htrace, List.append_assoc]
          · exact List.forall_mem_append.mpr ⟨hquiet, hrest⟩
  · obtain ⟨b, hpure, hb⟩ := hfailed a ha
    refine .inr ⟨before, event, b, s', ?_, hquiet, hloud, ?_, hb⟩
    · rw [trace_bind_of_eq hresult, hpure, trace_pure, List.append_nil, htrace]
    · rw [result_bind_of_eq hresult, hpure, result_pure]

/-- Behind a program that announces nothing. -/
theorem announces_quiet_bind {m : Traced σ ε α} {next : α → Traced σ ε β}
    (hquiet : m.Leaves fun events => ∀ e ∈ events, ¬ loud e)
    (hnext : ∀ a, Announces loud fails' (next a)) : Announces loud fails' (m >>= next) :=
  announces_bind (announces_of_quiet hquiet) (fun _ hfalse => hfalse.elim) fun a _ => hnext a

end Announces

/-- Either the two programs do the same and no event is bad, or they leave the same trace
up to a first bad event and that event. -/
def AgreeUntil (bad : ε → Prop) (m m' : Traced σ ε α) : Prop :=
  ∀ s, (m s = m' s ∧ ∀ event ∈ m.trace s, ¬ bad event) ∨
    ∃ before event after after', m.trace s = before ++ event :: after ∧
      m'.trace s = before ++ event :: after' ∧ bad event ∧ ∀ e ∈ before, ¬ bad e

/-- A program without bad events agrees with itself. -/
theorem agreeUntil_refl {bad : ε → Prop} {m : Traced σ ε α}
    (hgood : ∀ s, ∀ event ∈ m.trace s, ¬ bad event) : AgreeUntil bad m m :=
  fun s => .inl ⟨rfl, hgood s⟩

theorem agreeUntil_pure {bad : ε → Prop} (a : α) :
    AgreeUntil bad (pure a : Traced σ ε α) (pure a) :=
  agreeUntil_refl (by simp)

/-- **The sequencing rule of agreement.** -/
theorem agreeUntil_bind {bad : ε → Prop} {m m' : Traced σ ε α} {next next' : α → Traced σ ε β}
    (hm : AgreeUntil bad m m') (hnext : ∀ a, AgreeUntil bad (next a) (next' a)) :
    AgreeUntil bad (m >>= next) (m' >>= next') := by
  intro s
  rcases hm s with ⟨hsame, hgood⟩ | ⟨before, event, after, after', htrace, htrace', hbad, hbefore⟩
  · have htrace : m.trace s = m'.trace s := congrArg Prod.fst hsame
    have hresult : m.result s = m'.result s := congrArg Prod.snd hsame
    cases hout : m.result s with
    | none =>
        have hout' : m'.result s = none := hresult.symm.trans hout
        refine .inl ⟨Prod.ext ?_ ?_, ?_⟩
        · exact (trace_bind_of_none hout).trans (htrace.trans (trace_bind_of_none hout').symm)
        · exact (result_bind_of_none hout).trans (result_bind_of_none hout').symm
        · rwa [trace_bind_of_none hout]
    | some out =>
        obtain ⟨a, s'⟩ := out
        have hout' : m'.result s = some (a, s') := hresult.symm.trans hout
        have hrun : (m >>= next).trace s = m.trace s ++ (next a).trace s' := trace_bind_of_eq hout
        have hrun' : (m' >>= next').trace s = m.trace s ++ (next' a).trace s' := by
          rw [trace_bind_of_eq hout', htrace]
        rcases hnext a s' with ⟨hsame', hgood'⟩ |
          ⟨before, event, after, after', hrest, hrest', hbad, hbefore⟩
        · have hrest : (next a).trace s' = (next' a).trace s' := congrArg Prod.fst hsame'
          refine .inl ⟨Prod.ext ?_ ?_, ?_⟩
          · exact hrun.trans ((congrArg (m.trace s ++ ·) hrest).trans hrun'.symm)
          · exact (result_bind_of_eq hout).trans
              ((congrArg Prod.snd hsame').trans (result_bind_of_eq hout').symm)
          · rw [hrun]
            exact List.forall_mem_append.mpr ⟨hgood, hgood'⟩
        · refine .inr ⟨m.trace s ++ before, event, after, after', ?_, ?_, hbad, ?_⟩
          · rw [hrun, hrest, List.append_assoc]
          · rw [hrun', hrest', List.append_assoc]
          · exact List.forall_mem_append.mpr ⟨hgood, hbefore⟩
  · refine .inr ⟨before, event, after ++ (m.result s).elim [] fun out => (next out.1).trace out.2,
      after' ++ (m'.result s).elim [] fun out => (next' out.1).trace out.2, ?_, ?_, hbad, hbefore⟩
    · rw [trace_bind, htrace, List.append_assoc, List.cons_append]
    · rw [trace_bind, htrace', List.append_assoc, List.cons_append]

/-- Behind an event, the rest matters only when the event is not bad. -/
theorem agreeUntil_emit_bind {bad : ε → Prop} {event : ε} {next next' : PUnit → Traced σ ε β}
    (hnext : ¬ bad event → AgreeUntil bad (next ⟨⟩) (next' ⟨⟩)) :
    AgreeUntil bad (emit event >>= next) (emit event >>= next') := by
  by_cases hbad : bad event
  · intro s
    exact .inr ⟨[], event, (next ⟨⟩).trace s, (next' ⟨⟩).trace s, rfl, rfl, hbad, by simp⟩
  · have hemit : AgreeUntil bad (emit event : Traced σ ε PUnit) (emit event) :=
      agreeUntil_refl fun s e he => by rwa [List.mem_singleton.mp he]
    exact agreeUntil_bind hemit fun _ => hnext hbad

end Traced

end BasC.Lib
