/-
# Resources in the run of a program

A program acquires resources, lets others use them and releases them, between steps that know
nothing of resources. A resource may only be used while it is held, which the run shows: each use
is recorded with the ledger at that moment. A triple says which resources a program starts with
and which it leaves, beside any others, and it counts the events at which a resource is known to be
lost. Without its resources, the program is one over the states alone.
-/

import BasC.Lib.Ledger
import BasC.Lib.Traced

namespace BasC.Lib

/-- What a run leaves: the events of the program, and the uses of resources. -/
inductive ResourceEvent (ε : Type)
  | ran (event : ε)
  /-- The resource is used, and this is the ledger. -/
  | used (resource : ℕ) (ledger : Ledger)

namespace ResourceEvent

variable {ε : Type}

/-- The event of the program. -/
def ran? : ResourceEvent ε → Option ε
  | .ran event => some event
  | .used _ _ => none

/-- An event of the program that is counted. -/
def counts (counted : ε → Bool) : ResourceEvent ε → Bool
  | .ran event => counted event
  | .used _ _ => false

/-- A resource that is used has been acquired and has not been released. -/
def Live : ResourceEvent ε → Prop
  | .ran _ => True
  | .used resource ledger => resource < ledger.next ∧ resource ∉ ledger.freed

theorem countP_counts (counted : ε → Bool) (events : List (ResourceEvent ε)) :
    events.countP (counts counted) = (events.filterMap ran?).countP counted := by
  induction events with
  | nil => rfl
  | cons event events ih =>
      cases event with
      | ran event =>
          have hseen : (ResourceEvent.ran event :: events).filterMap ran? =
              event :: events.filterMap ran? := rfl
          rw [hseen, List.countP_cons, List.countP_cons, ih]
          rfl
      | used resource ledger =>
          have hunseen : (ResourceEvent.used resource ledger :: events).filterMap ran? =
              events.filterMap ran? := rfl
          rw [hunseen, ← ih]
          exact List.countP_cons_of_neg Bool.false_ne_true

end ResourceEvent

open ResourceEvent

/-- A program over states with a ledger of resources. -/
abbrev Holding (σ ε α : Type) := Traced (σ × Ledger) (ResourceEvent ε) α

namespace Holding

variable {σ ε α α' β β' : Type}

/-- A step that knows nothing of resources. -/
def lift (m : Traced σ ε α) : Holding σ ε α := fun s =>
  ((m.trace s.1).map .ran, (m.result s.1).map fun out => (out.1, out.2, s.2))

/-- A new resource. -/
def acquire : Holding σ ε ℕ := Traced.update fun s => (s.2.next, s.1, s.2.grow 1)

def release (resources : List ℕ) : Holding σ ε PUnit :=
  Traced.update fun s => (⟨⟩, s.1, s.2.free resources)

/-- Others use the resource, if there is one. -/
def use : Option ℕ → Holding σ ε PUnit
  | none => pure ⟨⟩
  | some resource => do
      let s ← Traced.current
      Traced.emit (.used resource s.2)

/-- Without its resources, the program is this one, which returns this part of the value. -/
def Forgets (value : α' → α) (m' : Holding σ ε α') (m : Traced σ ε α) : Prop :=
  ∀ s ledger, (m'.trace (s, ledger)).filterMap ran? = m.trace s ∧
    (m'.result (s, ledger)).map (fun out => (value out.1, out.2.1)) = m.result s

section Forgets

variable {value : α' → α} {value' : β' → β}

theorem forgets_pure (a : α') : Forgets value (pure a : Holding σ ε α') (pure (value a)) :=
  fun _ _ => ⟨rfl, rfl⟩

theorem forgets_lift (m : Traced σ ε α) : Forgets id (lift m) m := by
  intro s ledger
  constructor
  · change ((m.trace s).map ResourceEvent.ran).filterMap ran? = m.trace s
    rw [List.filterMap_map]
    exact List.filterMap_some
  · change ((m.result s).map _).map _ = m.result s
    rw [Option.map_map]
    exact Option.map_id'

theorem forgets_bind {m' : Holding σ ε α'} {m : Traced σ ε α} {next' : α' → Holding σ ε β'}
    {next : α → Traced σ ε β} (hm : Forgets value m' m)
    (hnext : ∀ a, Forgets value' (next' a) (next (value a))) :
    Forgets value' (m' >>= next') (m >>= next) := by
  intro s ledger
  obtain ⟨htrace, hresult⟩ := hm s ledger
  cases hout : m'.result (s, ledger) with
  | none =>
      have hnone : m.result s = none := by rw [← hresult, hout]; rfl
      rw [Traced.trace_bind_of_none hout, Traced.trace_bind_of_none hnone,
        Traced.result_bind_of_none hout, Traced.result_bind_of_none hnone]
      exact ⟨htrace, rfl⟩
  | some out =>
      obtain ⟨a, s', ledger'⟩ := out
      have hsome : m.result s = some (value a, s') := by rw [← hresult, hout]; rfl
      rw [Traced.trace_bind_of_eq hout, Traced.trace_bind_of_eq hsome,
        Traced.result_bind_of_eq hout, Traced.result_bind_of_eq hsome, List.filterMap_append,
        htrace]
      obtain ⟨htrace', hresult'⟩ := hnext a s' ledger'
      exact ⟨by rw [htrace'], hresult'⟩

/-- A last step that puts another value in the place of this one. -/
theorem forgets_return {m' : Holding σ ε α'} {m : Traced σ ε α} {next' : α' → Holding σ ε β'}
    {value' : β' → α} (hm : Forgets value m' m)
    (hnext : ∀ a, Forgets value' (next' a) (pure (value a))) : Forgets value' (m' >>= next') m := by
  rw [← Traced.bind_pure m]
  exact forgets_bind hm hnext

/-- A step that does nothing but with resources. -/
theorem forgets_silent {m' : Holding σ ε α'} {next' : α' → Holding σ ε β'} {m : Traced σ ε β}
    (hm : Forgets (fun _ => PUnit.unit) m' (pure ⟨⟩)) (hnext : ∀ a, Forgets value' (next' a) m) :
    Forgets value' (m' >>= next') m := by
  have hbind : Forgets value' (m' >>= next') ((pure ⟨⟩ : Traced σ ε PUnit) >>= fun _ => m) :=
    forgets_bind hm hnext
  rwa [Traced.pure_bind] at hbind

theorem forgets_acquire :
    Forgets (fun _ => PUnit.unit) (acquire : Holding σ ε ℕ) (pure ⟨⟩) := fun _ _ => ⟨rfl, rfl⟩

theorem forgets_release (resources : List ℕ) :
    Forgets (fun _ => PUnit.unit) (release resources : Holding σ ε PUnit) (pure ⟨⟩) :=
  fun _ _ => ⟨rfl, rfl⟩

theorem forgets_use (resource : Option ℕ) :
    Forgets (fun _ => PUnit.unit) (use resource : Holding σ ε PUnit) (pure ⟨⟩) := by
  cases resource <;> exact fun _ _ => ⟨rfl, rfl⟩

end Forgets

/-- A program that starts with these resources uses only resources that are held. If it gets to
its end, it leaves resources that fit its value and the number of counted events, and all others as
they were. -/
def Keeps (counted : ε → Bool) (held : Multiset ℕ) (m : Holding σ ε α)
    (post : ℕ → α → Multiset ℕ → Prop) : Prop :=
  ∀ s ledger others, ledger.Holds (held + others) →
    (∀ event ∈ m.trace (s, ledger), event.Live) ∧
      ∀ a s' ledger', m.result (s, ledger) = some (a, s', ledger') →
        ∃ left, ledger'.Holds (left + others) ∧
          post ((m.trace (s, ledger)).countP (counts counted)) a left

section Keeps

variable {counted : ε → Bool} {held own r : Multiset ℕ}
variable {m : Holding σ ε α} {next : α → Holding σ ε β}
variable {mid : ℕ → α → Multiset ℕ → Prop} {post : ℕ → β → Multiset ℕ → Prop}

theorem keeps_pure {b : β} (hpost : post 0 b held) :
    Keeps counted held (pure b : Holding σ ε β) post := by
  intro s ledger others hledger
  refine ⟨List.forall_mem_nil _, fun a s' ledger' hresult => ?_⟩
  cases hresult
  exact ⟨held, hledger, hpost⟩

theorem Keeps.mono {post' : ℕ → α → Multiset ℕ → Prop} (hm : Keeps counted held m mid)
    (hpost : ∀ n a left, mid n a left → post' n a left) : Keeps counted held m post' :=
  fun s ledger others hledger =>
    ⟨(hm s ledger others hledger).1, fun a s' ledger' hresult =>
      have ⟨left, hleft, hmid⟩ := (hm s ledger others hledger).2 a s' ledger' hresult
      ⟨left, hleft, hpost _ _ _ hmid⟩⟩

/-- **The sequencing rule of resources.** The first program works on what it owns, and the second
has what it leaves and what was put aside. The counts add up. -/
theorem Keeps.bind (hm : Keeps counted own m mid) (hheld : held = own + r)
    (hnext : ∀ n a left, mid n a left →
      Keeps counted (left + r) (next a) fun k b left' => post (n + k) b left') :
    Keeps counted held (m >>= next) post := by
  intro s ledger others hledger
  rw [hheld, add_assoc] at hledger
  obtain ⟨hlive, hleaves⟩ := hm s ledger (r + others) hledger
  cases hout : m.result (s, ledger) with
  | none =>
      rw [Traced.trace_bind_of_none hout, Traced.result_bind_of_none hout]
      exact ⟨hlive, fun a s' ledger' hresult => by cases hresult⟩
  | some out =>
      obtain ⟨a, s', ledger'⟩ := out
      obtain ⟨left, hleft, hmid⟩ := hleaves a s' ledger' hout
      rw [← add_assoc] at hleft
      obtain ⟨hlive', hleaves'⟩ := hnext _ a left hmid s' ledger' others hleft
      rw [Traced.trace_bind_of_eq hout, Traced.result_bind_of_eq hout, List.countP_append]
      exact ⟨List.forall_mem_append.mpr ⟨hlive, hlive'⟩, hleaves'⟩

/-- A program that owns all there is. -/
theorem Keeps.step (hm : Keeps counted held m mid)
    (hnext : ∀ n a left, mid n a left →
      Keeps counted left (next a) fun k b left' => post (n + k) b left') :
    Keeps counted held (m >>= next) post :=
  hm.bind (add_zero held).symm fun n a left hmid => by
    rw [add_zero]
    exact hnext n a left hmid

/-- A step that knows nothing of resources. -/
theorem keeps_lift {m : Traced σ ε α} {Q : ℕ → α → Prop}
    (hm : ∀ s, m.Ensures s fun events a _ => Q (events.countP counted) a) :
    Keeps counted 0 (lift m) fun n a left => left = 0 ∧ Q n a := by
  intro s ledger others hledger
  have htrace : (lift m).trace (s, ledger) = (m.trace s).map .ran := rfl
  refine ⟨fun event hevent => ?_, fun a s' ledger' hresult => ?_⟩
  · rw [htrace] at hevent
    obtain ⟨event, -, rfl⟩ := List.mem_map.mp hevent
    trivial
  · obtain ⟨⟨a', t⟩, hout, hsame⟩ := Option.map_eq_some_iff.mp hresult
    cases hsame
    refine ⟨0, hledger, rfl, ?_⟩
    rw [htrace, List.countP_map]
    exact hm s a' t hout

/-- A step at which nothing is counted. -/
theorem keeps_quiet {m : Traced σ ε α}
    (hm : m.Leaves fun events => ∀ event ∈ events, counted event = false) :
    Keeps counted 0 (lift m) fun n _ left => left = 0 ∧ n = 0 :=
  keeps_lift fun s _ _ _ =>
    List.countP_eq_zero.mpr fun event hevent => Bool.eq_false_iff.mp (hm s event hevent)

theorem keeps_acquire :
    Keeps counted 0 (acquire : Holding σ ε ℕ) fun n resource left => left = {resource} ∧ n = 0 := by
  intro s ledger others hledger
  refine ⟨List.forall_mem_nil _, fun a s' ledger' hresult => ?_⟩
  cases hresult
  rw [zero_add] at hledger
  exact ⟨{ledger.next}, hledger.alloc, rfl, rfl⟩

theorem keeps_release (resources : List ℕ) :
    Keeps counted resources (release resources : Holding σ ε PUnit)
      fun n _ left => left = 0 ∧ n = 0 := by
  intro s ledger others hledger
  refine ⟨List.forall_mem_nil _, fun a s' ledger' hresult => ?_⟩
  cases hresult
  exact ⟨0, (zero_add others).symm ▸ hledger.free, rfl, rfl⟩

theorem keeps_use (resource : Option ℕ) :
    Keeps counted resource.toList (use resource : Holding σ ε PUnit)
      fun n _ left => left = resource.toList ∧ n = 0 := by
  cases resource with
  | none => exact keeps_pure ⟨rfl, rfl⟩
  | some resource =>
      intro s ledger others hledger
      refine ⟨fun event hevent => ?_, fun a s' ledger' hresult => ?_⟩
      · obtain rfl := List.mem_singleton.mp hevent
        exact hledger.live
      · cases hresult
        exact ⟨_, hledger, rfl, rfl⟩

end Keeps

end Holding

end BasC.Lib
