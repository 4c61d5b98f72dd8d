/-
# Programs that own memory

A program asks for blocks of memory and frees them, and each request may be refused. What it owns
is said by a triple: a program that starts with some blocks ends with some blocks, whatever other
blocks there are. The other blocks are in the definition, so a triple for a part of a program holds
inside every larger one, and the ledger balances all the way: the blocks that are held and the
blocks that have been freed are together the blocks that were handed out, each once.
-/

import BasC.Lib.Ledger

namespace BasC.Lib

/-- The ledger of a memory, and the number of requests that have been made. -/
structure Heap where
  ledger : Ledger
  asked : ℕ
  deriving DecidableEq

namespace Heap

/-- Nothing has been asked for. -/
def empty : Heap := ⟨.empty, 0⟩

end Heap

/-- A program that works on a memory. -/
abbrev Owning (α : Type) := StateM Heap α

/-- Ask for a block. The request is met if it is among those that are granted. -/
def malloc (grants : ℕ → Bool) : Owning (Option ℕ) := fun heap =>
  if grants heap.asked then
    (some heap.ledger.next, ⟨heap.ledger.grow 1, heap.asked + 1⟩)
  else (none, ⟨heap.ledger, heap.asked + 1⟩)

/-- Ask for a block, and end the program when there is none. -/
def alloc : Owning ℕ := fun heap =>
  (heap.ledger.next, ⟨heap.ledger.grow 1, heap.asked + 1⟩)

/-- Give blocks back. -/
def free (blocks : List ℕ) : Owning PUnit := fun heap =>
  (⟨⟩, ⟨heap.ledger.free blocks, heap.asked⟩)

/-- Ask for a block in the place of another one, or of none. If the request is refused, the
old block stays. -/
def realloc (grants : ℕ → Bool) (old : Option ℕ) : Owning (Option ℕ) := do
  match ← malloc grants with
  | none => pure none
  | some block => do
      free old.toList
      pure (some block)

/-- Every request is met, whatever place it comes from. -/
def Met {Site : Type} (grants : Site → ℕ → Bool) : Prop := ∀ site n, grants site n = true

/-- A program that starts with these blocks ends with blocks that fit its result, and leaves all
other blocks alone. -/
def Owns {α : Type} (held : Multiset ℕ) (m : Owning α) (post : α → Multiset ℕ → Prop) : Prop :=
  ∀ heap others, heap.ledger.Holds (held + others) →
    ∃ left, (m heap).2.ledger.Holds (left + others) ∧ post (m heap).1 left

section Rules

variable {α β : Type} {held own r : Multiset ℕ} {m : Owning α} {f : α → Owning β}
variable {post mid : α → Multiset ℕ → Prop} {goal : β → Multiset ℕ → Prop}

theorem owns_pure {a : α} (hpost : post a held) : Owns held (pure a) post :=
  fun _ _ hheap => ⟨held, hheap, hpost⟩

theorem Owns.mono (hm : Owns held m mid) (hpost : ∀ a left, mid a left → post a left) :
    Owns held m post := fun heap others hheap =>
  have ⟨left, hleft, hmid⟩ := hm heap others hheap
  ⟨left, hleft, hpost _ _ hmid⟩

/-- **One step of a program.** It works on the blocks that it owns, and what comes behind it has
what it leaves and the blocks that were put aside. -/
theorem Owns.bind (hm : Owns own m mid) (hheld : held = own + r)
    (hf : ∀ a left, mid a left → Owns (left + r) (f a) goal) : Owns held (m >>= f) goal := by
  intro heap others hheap
  rw [hheld, add_assoc] at hheap
  obtain ⟨left, hleft, hmid⟩ := hm heap (r + others) hheap
  rw [← add_assoc] at hleft
  exact hf _ left hmid _ others hleft

/-- A step that owns all there is. -/
theorem Owns.step (hm : Owns held m mid) (hf : ∀ a left, mid a left → Owns left (f a) goal) :
    Owns held (m >>= f) goal :=
  hm.bind (add_zero held).symm fun a left hmid => by
    rw [add_zero]
    exact hf a left hmid

/-- A program that owns no more than a part. -/
theorem Owns.frame (hm : Owns own m mid) (hheld : held = own + r)
    (hpost : ∀ a left, mid a left → post a (left + r)) : Owns held m post := by
  have hbind : Owns held (m >>= pure) post :=
    hm.bind hheld fun a left hmid => owns_pure (hpost a left hmid)
  rwa [bind_pure] at hbind

end Rules

/-- A block more, if the request is met. -/
theorem owns_malloc (grants : ℕ → Bool) :
    Owns 0 (malloc grants) fun out left => left = out.toList ∧ ((∀ n, grants n) → out ≠ none) := by
  intro heap others hheap
  rw [zero_add] at hheap
  unfold malloc
  by_cases hgrant : grants heap.asked = true
  · rw [if_pos hgrant]
    exact ⟨{heap.ledger.next}, hheap.alloc, rfl, fun _ => Option.some_ne_none _⟩
  · rw [if_neg hgrant]
    exact ⟨0, (zero_add others).symm ▸ hheap, rfl, fun hall => absurd (hall _) hgrant⟩

theorem owns_alloc : Owns 0 alloc fun block left => left = {block} :=
  fun heap others hheap => by
    rw [zero_add] at hheap
    exact ⟨{heap.ledger.next}, hheap.alloc, rfl⟩

theorem owns_free (blocks : List ℕ) : Owns blocks (free blocks) fun _ left => left = 0 :=
  fun _ others hheap => ⟨0, (zero_add others).symm ▸ hheap.free, rfl⟩

theorem owns_freeOne (block : ℕ) : Owns {block} (free [block]) fun _ left => left = 0 :=
  owns_free _

/-- A program that gives back what each element of a list holds, one after the other. -/
theorem owns_forM {α : Type} {held : α → Multiset ℕ} {f : α → Owning PUnit}
    (hf : ∀ a, Owns (held a) (f a) fun _ left => left = 0) (list : List α) :
    Owns (list.map held).sum (list.forM f) fun _ left => left = 0 := by
  induction list with
  | nil => exact owns_pure rfl
  | cons a list ih =>
      rw [List.map_cons, List.sum_cons]
      change Owns _ (f a >>= fun _ => list.forM f) _
      refine (hf a).bind rfl fun _ left hleft => ?_
      rwa [hleft, zero_add]

@[simp]
theorem toList_none : (((none : Option ℕ).toList : List ℕ) : Multiset ℕ) = 0 := rfl

@[simp]
theorem toList_some (block : ℕ) : (((some block).toList : List ℕ) : Multiset ℕ) = {block} := rfl

/-- The old block is replaced, or stays. -/
theorem owns_realloc (grants : ℕ → Bool) (old : Option ℕ) :
    Owns old.toList (realloc grants old) fun out left =>
      (out = none → left = old.toList) ∧ (∀ block, out = some block → left = {block}) ∧
        ((∀ n, grants n) → out ≠ none) := by
  refine (owns_malloc grants).bind (zero_add _).symm fun out left hout => ?_
  obtain ⟨rfl, hgranted⟩ := hout
  cases out with
  | none =>
      refine owns_pure ⟨fun _ => zero_add _, fun block hblock => ?_, hgranted⟩
      cases hblock
  | some block =>
      refine (owns_free old.toList).bind (add_comm _ _) fun _ left hleft => owns_pure ?_
      refine ⟨fun hnone => ?_, fun block' hblock => ?_, fun _ => Option.some_ne_none _⟩
      · cases hnone
      · cases hblock
        rw [hleft, zero_add]
        rfl

/-- The triple of a program that starts after so many requests: what is said of its end can depend
on which requests are met, and how many have been made. -/
def OwnsAt {α : Type} (asked : ℕ) (held : Multiset ℕ) (m : Owning α)
    (post : α → ℕ → Multiset ℕ → Prop) : Prop :=
  ∀ heap others, heap.asked = asked → heap.ledger.Holds (held + others) →
    ∃ left, (m heap).2.ledger.Holds (left + others) ∧ post (m heap).1 (m heap).2.asked left

section Counting

variable {α β : Type} {asked : ℕ} {held own r : Multiset ℕ} {m : Owning α} {f : α → Owning β}
variable {mid : α → ℕ → Multiset ℕ → Prop} {goal : β → ℕ → Multiset ℕ → Prop}

theorem ownsAt_pure {a : α} {post : α → ℕ → Multiset ℕ → Prop} (hpost : post a asked held) :
    OwnsAt asked held (pure a) post :=
  fun _ _ hasked hheap => ⟨held, hheap, hasked ▸ hpost⟩

theorem OwnsAt.mono {post : α → ℕ → Multiset ℕ → Prop} (hm : OwnsAt asked held m mid)
    (hpost : ∀ a n left, mid a n left → post a n left) : OwnsAt asked held m post :=
  fun heap others hasked hheap =>
    have ⟨left, hleft, hmid⟩ := hm heap others hasked hheap
    ⟨left, hleft, hpost _ _ _ hmid⟩

theorem OwnsAt.bind (hm : OwnsAt asked own m mid) (hheld : held = own + r)
    (hf : ∀ a n left, mid a n left → OwnsAt n (left + r) (f a) goal) :
    OwnsAt asked held (m >>= f) goal := by
  intro heap others hasked hheap
  rw [hheld, add_assoc] at hheap
  obtain ⟨left, hleft, hmid⟩ := hm heap (r + others) hasked hheap
  rw [← add_assoc] at hleft
  exact hf _ _ left hmid _ others rfl hleft

theorem OwnsAt.step (hm : OwnsAt asked held m mid)
    (hf : ∀ a n left, mid a n left → OwnsAt n left (f a) goal) :
    OwnsAt asked held (m >>= f) goal :=
  hm.bind (add_zero held).symm fun a n left hmid => by
    rw [add_zero]
    exact hf a n left hmid

/-- A program that makes no requests has its triple wherever it starts. -/
theorem Owns.ownsAt {post : α → Multiset ℕ → Prop} (hm : Owns held m post)
    (hasked : ∀ heap, (m heap).2.asked = heap.asked) :
    OwnsAt asked held m fun a n left => n = asked ∧ post a left := by
  intro heap others hstart hheap
  obtain ⟨left, hleft, hpost⟩ := hm heap others hheap
  exact ⟨left, hleft, (hasked heap).trans hstart, hpost⟩

end Counting

theorem ownsAt_malloc (grants : ℕ → Bool) (asked : ℕ) :
    OwnsAt asked 0 (malloc grants) fun out n left =>
      n = asked + 1 ∧ left = out.toList ∧ out.isSome = grants asked := by
  intro heap others hasked hheap
  obtain ⟨left, hleft, hout, -⟩ := owns_malloc grants heap others hheap
  refine ⟨left, hleft, ?_⟩
  subst hasked
  unfold malloc at hout ⊢
  by_cases hgrant : grants heap.asked = true
  · rw [if_pos hgrant] at hout ⊢
    exact ⟨rfl, hout, hgrant.symm⟩
  · rw [if_neg hgrant] at hout ⊢
    exact ⟨rfl, hout, (Bool.eq_false_iff.mpr hgrant).symm⟩

theorem ownsAt_realloc (grants : ℕ → Bool) (old : Option ℕ) (asked : ℕ) :
    OwnsAt asked old.toList (realloc grants old) fun out n left =>
      n = asked + 1 ∧ left = (out.elim old some).toList ∧ out.isSome = grants asked := by
  refine (ownsAt_malloc grants asked).bind (zero_add _).symm fun out n left hout => ?_
  obtain ⟨rfl, rfl, hgrant⟩ := hout
  cases out with
  | none => exact ownsAt_pure ⟨rfl, zero_add _, hgrant⟩
  | some block =>
      refine ((owns_free old.toList).ownsAt fun _ => rfl).bind (add_comm _ _)
        fun _ n left hleft => ownsAt_pure ?_
      obtain ⟨rfl, rfl⟩ := hleft
      exact ⟨rfl, zero_add _, hgrant⟩

end BasC.Lib
