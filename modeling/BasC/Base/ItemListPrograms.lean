/-
# Programs with growable lists

What the calls of a program do with the strings of its lists is known from each call. Here it is
put together for all calls: a call on a list that is there is defined when its byte counts do not
wrap, whatever its allocations come to, and then so is a program of such calls. A byte count that
wraps to zero is another matter: the array is freed, and the list reads it nevertheless.
-/

import BasC.Base.ItemListDefined
import BasC.Base.ItemListHeap
import BasC.Lib.Transition

namespace BasC

open Lib

namespace ListCode

variable {code : ListCode}

/-- The list of a call is there, and the byte counts of the call do not wrap. -/
def HeapAllowed (heap : ListHeap code) : HeapOp code → Prop
  | .create initialCapacity _ => MayGrow (⟨0, 0, some []⟩ : code.marked.Items) initialCapacity
  | .copy handle _ _ =>
      ∃ list, heap.get handle = some list ∧
        MayGrow (⟨0, 0, some []⟩ : code.marked.Items) list.capacity
  | .on handle op => ∃ list, heap.get handle = some list ∧ SizesFit list op
  | .sort handle _ => ∃ list, heap.get handle = some list
  | .unique handle _ => ∃ list, heap.get handle = some list
  | .free handle => ∃ list, heap.get handle = some list

/-- All lists have the slots of their capacities. -/
def AllWhole (heap : ListHeap code) : Prop := ∀ list, some list ∈ heap.lists → Whole list

theorem Whole.exists_holds {list : code.marked.Items} (hwhole : Whole list) (hsound : Sound list) :
    ∃ entries slots, Holds list entries slots := by
  obtain ⟨slots, hitems, -⟩ := hwhole
  refine hsound.resolve_left fun hgone => ?_
  rw [hgone] at hitems
  cases hitems

section Progress

variable {heap : ListHeap code} {lost : List ℕ} {handle : ℕ} {list : code.marked.Items}

theorem AllWhole.get (hwhole : AllWhole heap) (hget : heap.get handle = some list) :
    Whole list := by
  obtain ⟨before, after, hlists, -⟩ := heap.exists_get hget
  exact hwhole list (hlists ▸ List.mem_append_right _ List.mem_cons_self)

theorem AllWhole.put (hwhole : AllWhole heap) {new : Option code.marked.Items}
    (hnew : ∀ list, new = some list → Whole list) (copies : ℕ) (frees : List code.marked.Slot) :
    AllWhole (heap.put handle new copies frees) := by
  intro list hlist
  rcases List.mem_or_eq_of_mem_set hlist with hmem | hsame
  · exact hwhole list hmem
  · exact hnew list hsame.symm

theorem AllWhole.add (hwhole : AllWhole heap) (hlist : Whole list) (number : ℕ) :
    AllWhole (heap.add list number) := by
  intro list' hmem
  rcases List.mem_append.mp hmem with hmem | hmem
  · exact hwhole list' hmem
  · obtain rfl := Option.some.inj (List.mem_singleton.mp hmem)
    exact hlist

/-- What a call frees is there. -/
theorem Holds.frees_there {entries : List code.marked.Entry} {slots : List code.marked.Slot}
    (hlist : Holds list entries slots) (op : ListOp code.marked) :
    ∃ frees, op.frees list = some frees := by
  cases op with
  | remove index =>
      by_cases hindex : list.count ≤ index
      · exact ⟨[], if_pos hindex⟩
      · have hlt := Nat.lt_of_not_le hindex
        rw [hlist.count_eq] at hlt
        obtain ⟨before, after, rfl, rfl⟩ := exists_cut hlt.le
        cases after with
        | nil => simp at hlt
        | cons entry after => exact ⟨_, (if_neg hindex).trans hlist.freeStrings_one⟩
  | clear =>
      have hall := hlist.freeStrings 0
      rw [Nat.sub_zero] at hall
      exact ⟨_, hall⟩
  | resize newCapacity alloc => exact ⟨_, hlist.freeStrings newCapacity⟩
  | append | insert | get | size | find => exact ⟨[], rfl⟩

/-- A number beside a copy asks for no more memory. -/
theorem sizesFit_marked {op : ListOp code.marked} (hsizes : SizesFit list op) (number : ℕ) :
    SizesFit list (op.marked number) := by
  cases op <;> exact hsizes

/-- The loop of `string_list_copy` has the room that it needs. -/
theorem copyStrings_defined {copy : code.marked.Items} {allocs : ℕ → Alloc code.marked.Slot}
    (hlist : Whole list) (hcount : list.count ≤ list.capacity)
    (hroom : list.count ≤ copy.capacity) {before : List code.marked.Entry}
    {slots : List code.marked.Slot} (hcopy : Holds copy before slots) (hwhole : Whole copy)
    {rounds i number : ℕ} (hrounds : i + rounds ≤ list.count) (hbefore : before.length ≤ i) :
    ∃ number' complete copy', copyStrings list allocs rounds i number copy =
      some (number', complete, copy') ∧ Whole copy' := by
  induction rounds generalizing i number copy before slots with
  | zero => exact ⟨number, true, copy, rfl, hwhole⟩
  | succ rounds ih =>
      obtain ⟨item, hload⟩ := @Whole.load _ _ hlist i (by omega)
      rw [copyStrings, hload, Option.bind_some]
      cases item.name with
      | none => exact ih hroom hcopy hwhole (by omega) (by omega)
      | some name =>
          have hmay : MayGrow copy (copy.count + 1) := by
            intro hfull
            have hlength := hcopy.count_eq
            omega
          obtain ⟨ret, copy', happend, hwhole', hle⟩ :=
            hcopy.append_defined hwhole hmay name (item.data.1, number) (allocs i)
          dsimp only
          rw [happend, Option.bind_some]
          rcases hcopy.append_cases happend with ⟨rfl, slots', hcopy'⟩ | ⟨rfl, -⟩ | ⟨rfl, -⟩
          · rw [if_neg Int.one_ne_zero]
            refine ih (hroom.trans hle) hcopy' hwhole' (by omega) ?_
            rw [List.length_append, List.length_singleton]
            omega
          · exact ⟨number, false, copy', if_pos rfl, hwhole'⟩
          · exact ⟨number, false, copy', if_pos rfl, hwhole'⟩

/-- A list that is there has its entries. -/
theorem Accounts.get_whole (haccounts : Accounts heap lost) (hwhole : AllWhole heap)
    (hget : heap.get handle = some list) :
    Whole list ∧ ∃ entries slots, Holds list entries slots :=
  ⟨hwhole.get hget, (hwhole.get hget).exists_holds (haccounts.get hget)⟩

/-- **`string_list_copy`** is defined, whether the copy is complete or freed again. -/
theorem Accounts.copy_defined (haccounts : Accounts heap lost) (hwhole : AllWhole heap)
    (hget : heap.get handle = some list)
    (hmay : MayGrow (⟨0, 0, some []⟩ : code.marked.Items) list.capacity)
    (alloc : Alloc code.marked.Slot) (allocs : ℕ → Alloc code.marked.Slot) :
    ∃ heap', ListCode.heapStep heap (.copy handle alloc allocs) = some heap' ∧
      AllWhole heap' := by
  obtain ⟨hlist, entries, slots, hholds⟩ := haccounts.get_whole hwhole hget
  have hcount : list.count ≤ list.capacity := hholds.count_eq ▸ hholds.count_le
  obtain ⟨created, hcreate, hnew⟩ := create_defined hmay alloc
  rw [ListCode.heapStep, hget, Option.bind_some, hcreate, Option.bind_some]
  cases created with
  | none => exact ⟨heap, rfl, hwhole⟩
  | some new =>
      obtain ⟨hwhole', hcapacity⟩ := hnew new rfl
      obtain ⟨slots', hcopy⟩ := create_cases hcreate
      obtain ⟨number, complete, copy, hcopied, hcopy'⟩ := @copyStrings_defined _ _ new allocs
        hlist hcount (hcount.trans hcapacity) [] _ hcopy hwhole' list.count 0
        heap.ledger.next (by omega) (Nat.zero_le 0)
      dsimp only
      rw [hcopied, Option.bind_some]
      cases complete with
      | true => exact ⟨_, rfl, hwhole.add hcopy' number⟩
      | false =>
          obtain ⟨-, kept, hkept, -⟩ := copyStrings_numbers hcopy hcopied
          obtain ⟨entries', slots'', hholds'⟩ := hcopy'.exists_holds hkept.sound
          refine ⟨⟨heap.lists, (heap.ledger.grow (number - heap.ledger.next)).free
            ((entries'.map slotOf).map mark)⟩, ?_, hwhole⟩
          rw [if_neg Bool.false_ne_true, hholds'.freeList, Option.map_some]

/-- **An allowed call is defined.** -/
theorem Accounts.heapStep_defined (haccounts : Accounts heap lost) (hwhole : AllWhole heap)
    {op : HeapOp code} (hallowed : HeapAllowed heap op) :
    ∃ heap', ListCode.heapStep heap op = some heap' ∧ AllWhole heap' := by
  cases op with
  | create initialCapacity alloc =>
      obtain ⟨created, hcreate, hnew⟩ := create_defined hallowed alloc
      refine ⟨_, by rw [ListCode.heapStep, hcreate, Option.map_some], ?_⟩
      cases created with
      | none => exact hwhole
      | some list => exact hwhole.add (hnew list rfl).1 _
  | copy handle alloc allocs =>
      obtain ⟨list, hget, hmay⟩ := hallowed
      exact haccounts.copy_defined hwhole hget hmay alloc allocs
  | on handle op =>
      obtain ⟨list, hget, hsizes⟩ := hallowed
      obtain ⟨hlist, entries, slots, hholds⟩ := haccounts.get_whole hwhole hget
      obtain ⟨frees, hfrees⟩ := hholds.frees_there op
      obtain ⟨out, list', hstep, hlist'⟩ :=
        hholds.listStep_defined hlist (sizesFit_marked hsizes heap.ledger.next)
      refine ⟨heap.put handle (some list') (op.copies out) frees, ?_, hwhole.put ?_ _ _⟩
      · rw [ListCode.heapStep, hget, Option.bind_some, hfrees, Option.bind_some, hstep,
          Option.map_some]
      · rintro _ ⟨⟩
        exact hlist'
  | sort handle sorter =>
      obtain ⟨list, hget⟩ := hallowed
      obtain ⟨hlist, entries, slots, hholds⟩ := haccounts.get_whole hwhole hget
      obtain ⟨list', hsort, hlist'⟩ := hholds.sort_defined hlist sorter
      refine ⟨heap.put handle (some list') 0 [], ?_, hwhole.put ?_ _ _⟩
      · rw [ListCode.heapStep, hget, Option.bind_some, hsort, Option.map_some]
      · rintro _ ⟨⟩
        exact hlist'
  | unique handle sorter =>
      obtain ⟨list, hget⟩ := hallowed
      obtain ⟨hlist, entries, slots, hholds⟩ := haccounts.get_whole hwhole hget
      obtain ⟨freed, list', hunique, hlist'⟩ := hholds.frees_defined hlist sorter
      refine ⟨heap.put handle (some list') 0 freed, ?_, hwhole.put ?_ _ _⟩
      · rw [ListCode.heapStep, hget, Option.bind_some, hunique, Option.map_some]
      · rintro _ ⟨⟩
        exact hlist'
  | free handle =>
      obtain ⟨list, hget⟩ := hallowed
      obtain ⟨-, entries, slots, hholds⟩ := haccounts.get_whole hwhole hget
      refine ⟨heap.put handle none 0 (entries.map slotOf), ?_, hwhole.put (fun _ h => ?_) _ _⟩
      · rw [ListCode.heapStep, hget, Option.bind_some, hholds.freeList, Option.map_some]
      · cases h

end Progress

end ListCode

open ListCode

/-- **The strings of all lists.** Wherever the calls of a program on any number of lists of one of
the four files lead, no string is freed twice, no string in a list has been freed, and when the
program has freed its lists, each string has been freed exactly once. And whatever their
allocations come to, they lead somewhere, as long as each is on a list that is there and its byte
counts do not wrap. -/
theorem ownsStrings_of_run (m : ListModule) (ops : List (HeapOp m.code)) :
    (∀ heap, ops.foldlM heapStep ListHeap.empty = some heap → OwnsStrings heap) ∧
      (AllowedRun heapStep HeapAllowed ops (ListHeap.empty : ListHeap m.code) →
        ∃ heap, ops.foldlM heapStep ListHeap.empty = some heap ∧ OwnsStrings heap) := by
  have hempty : ∃ lost, Accounts (ListHeap.empty : ListHeap m.code) lost := ⟨[], accounts_empty⟩
  have hwhole : AllWhole (ListHeap.empty : ListHeap m.code) := fun _ hlist => by cases hlist
  constructor
  · intro heap hrun
    have hstep (op : HeapOp m.code) (_ : op ∈ ops) (heap heap' : ListHeap m.code)
        (haccounts : ∃ lost, Accounts heap lost) (hstep : heapStep heap op = some heap') :
        ∃ lost', Accounts heap' lost' := by
      obtain ⟨lost, haccounts⟩ := haccounts
      exact haccounts.heapStep hstep
    obtain ⟨lost, haccounts⟩ := foldlM_invariant hstep hempty hrun
    exact haccounts.ownsStrings
  · intro hallowed
    have hstep (heap : ListHeap m.code) (op : HeapOp m.code)
        (hinv : (∃ lost, Accounts heap lost) ∧ AllWhole heap) (hop : HeapAllowed heap op) :
        ∃ heap', heapStep heap op = some heap' ∧
          (∃ lost, Accounts heap' lost) ∧ AllWhole heap' := by
      obtain ⟨⟨lost, haccounts⟩, hwhole⟩ := hinv
      obtain ⟨heap', hstep, hwhole'⟩ := haccounts.heapStep_defined hwhole hop
      exact ⟨heap', hstep, haccounts.heapStep hstep, hwhole'⟩
    obtain ⟨heap, hrun, ⟨lost, haccounts⟩, -⟩ := foldlM_progress hstep ⟨hempty, hwhole⟩ hallowed
    exact ⟨heap, hrun, haccounts.ownsStrings⟩

/-- Allocations that succeed. -/
def markedAlloc : Alloc stringList.marked.Slot := ⟨true, true, true, true, fun _ => ⟨none, ((), 0)⟩⟩

/-- A `resize` whose byte count wraps to zero frees the array, and the end of the list would free
its string once more. -/
example : ([.create 1 markedAlloc, .on 0 (.append (cstr "a") ((), 0) markedAlloc),
    .on 0 (.resize 0x2000000000000000 markedAlloc), .free 0].foldlM heapStep
      (ListHeap.empty : ListHeap stringList)).isNone = true := by
  decide +kernel

/-- Two strings, a copy of their list for which the memory ends at the second string, and a removal
in front of the end of the list. -/
def copyOps : List (HeapOp stringList) :=
  [.create 0 markedAlloc,
    .on 0 (.append (cstr "a") ((), 0) markedAlloc),
    .on 0 (.append (cstr "b") ((), 0) markedAlloc),
    .copy 0 markedAlloc fun i =>
      if i = 0 then markedAlloc else { markedAlloc with strDup := false },
    .on 0 (.remove 0), .free 0]

/-- These calls are allowed. -/
theorem ownsStrings_of_run_copy :
    ∃ heap, copyOps.foldlM heapStep (ListHeap.empty : ListHeap stringList) = some heap ∧
      OwnsStrings heap := by
  apply (ownsStrings_of_run .string copyOps).2
  refine ⟨fun hfull => absurd hfull (Nat.lt_irrefl 0), ?_⟩
  rintro _ ⟨⟩
  refine ⟨⟨_, rfl, fun _ => ⟨0, by decide, by decide⟩⟩, ?_⟩
  rintro _ ⟨⟩
  refine ⟨⟨_, rfl, fun hfull => absurd hfull (by decide)⟩, ?_⟩
  rintro _ ⟨⟩
  refine ⟨⟨_, rfl, fun _ => ⟨0, by decide, by decide⟩⟩, ?_⟩
  rintro _ ⟨⟩
  refine ⟨⟨_, rfl, trivial⟩, ?_⟩
  rintro _ ⟨⟩
  exact ⟨⟨_, rfl⟩, fun _ _ => trivial⟩

end BasC
