/-
# Loops that may not end

A loop is a round: a state gives the events of the round, and either the state of the next
round or the value of the loop. Nothing bounds the number of rounds, so a loop ends when
some number of them is enough, and what it leaves does not depend on that number. A set of
states that a round always stays in is one from which the loop never ends.
-/

import Mathlib.Data.List.Basic

namespace BasC.Lib

variable {σ ε β : Type*}

/-- What at most `fuel` rounds leave: the events and the value, if these rounds end. -/
def rounds (round : σ → List ε × (σ ⊕ β)) : ℕ → σ → Option (List ε × β)
  | 0, _ => none
  | fuel + 1, s =>
      match round s with
      | (events, .inr value) => some (events, value)
      | (events, .inl next) =>
          (rounds round fuel next).map fun rest => (events ++ rest.1, rest.2)

/-- The loop from `s` ends with these events and this value. -/
def Ends (round : σ → List ε × (σ ⊕ β)) (s : σ) (events : List ε) (value : β) : Prop :=
  ∃ fuel, rounds round fuel s = some (events, value)

variable {round : σ → List ε × (σ ⊕ β)} {s next : σ} {events first : List ε} {value last : β}

/-- A round that gives the value is the last one. -/
theorem ends_iff_of_last (hround : round s = (first, .inr last)) :
    Ends round s events value ↔ events = first ∧ value = last := by
  constructor
  · rintro ⟨fuel, hfuel⟩
    cases fuel with
    | zero => cases hfuel
    | succ fuel =>
        simp only [rounds, hround] at hfuel
        obtain ⟨hevents, hvalue⟩ := Prod.mk.inj (Option.some.inj hfuel)
        exact ⟨hevents.symm, hvalue.symm⟩
  · rintro ⟨rfl, rfl⟩
    exact ⟨1, by simp only [rounds, hround]⟩

/-- A round that goes on is followed by the loop from the next state. -/
theorem ends_iff_of_next (hround : round s = (first, .inl next)) :
    Ends round s events value ↔ ∃ rest, events = first ++ rest ∧ Ends round next rest value := by
  constructor
  · rintro ⟨fuel, hfuel⟩
    cases fuel with
    | zero => cases hfuel
    | succ fuel =>
        simp only [rounds, hround] at hfuel
        obtain ⟨⟨rest, last⟩, hrest, hout⟩ := Option.map_eq_some_iff.mp hfuel
        obtain ⟨hevents, rfl⟩ := Prod.mk.inj hout
        exact ⟨rest, hevents.symm, fuel, hrest⟩
  · rintro ⟨rest, rfl, fuel, hfuel⟩
    exact ⟨fuel + 1, by simp only [rounds, hround, hfuel, Option.map_some]⟩

/-- **A loop leaves one trace and one value.** -/
theorem Ends.unique {events' : List ε} {value' : β} (hends : Ends round s events value)
    (hends' : Ends round s events' value') : events = events' ∧ value = value' := by
  obtain ⟨fuel, hfuel⟩ := hends
  induction fuel generalizing s events events' with
  | zero => cases hfuel
  | succ fuel ih =>
      cases hround : round s with
      | mk first out =>
          cases out with
          | inr last =>
              obtain ⟨rfl, rfl⟩ := (ends_iff_of_last hround).mp ⟨fuel + 1, hfuel⟩
              obtain ⟨rfl, rfl⟩ := (ends_iff_of_last hround).mp hends'
              exact ⟨rfl, rfl⟩
          | inl next =>
              obtain ⟨rest', rfl, hrest'⟩ := (ends_iff_of_next hround).mp hends'
              simp only [rounds, hround] at hfuel
              obtain ⟨⟨rest, last⟩, hrest, hout⟩ := Option.map_eq_some_iff.mp hfuel
              obtain ⟨rfl, rfl⟩ := Prod.mk.inj hout
              obtain ⟨rfl, rfl⟩ := ih hrest' hrest
              exact ⟨rfl, rfl⟩

/-- **A loop that stays inside a set never ends.** -/
theorem not_ends_of_invariant {inside : σ → Prop}
    (hround : ∀ s, inside s → ∃ events next, round s = (events, .inl next) ∧ inside next)
    (hinside : inside s) : ¬ Ends round s events value := by
  rintro ⟨fuel, hfuel⟩
  induction fuel generalizing s events with
  | zero => cases hfuel
  | succ fuel ih =>
      obtain ⟨first, next, hfirst, hnext⟩ := hround s hinside
      simp only [rounds, hfirst] at hfuel
      obtain ⟨⟨rest, last⟩, hrest, hout⟩ := Option.map_eq_some_iff.mp hfuel
      obtain ⟨-, rfl⟩ := Prod.mk.inj hout
      exact ih hnext hrest

end BasC.Lib
