/-
# The strings of growable lists

A list has copies of its strings, made by `str_dup`. Here the copies that the calls of a program
make are numbered, and each call says which of them it frees: `remove`, `clear`, a shrinking
`resize`, `unique`, a `copy` that fails on its way, and the end of the list. Whatever the
allocations of the calls come to, no string is freed twice, no string in a list has been freed,
and none is left when all lists have been freed, as long as no call is undefined.
-/

import BasC.Base.ItemListStates
import BasC.Lib.Ledger

namespace BasC

open Lib

namespace ListCode

variable {code : ListCode}

/-- The list module with a number beside each string, by which its memory is known. -/
abbrev marked (code : ListCode) : ListCode where
  Text := code.Text
  Data := code.Data × ℕ
  itemSize := code.itemSize
  clearsByLoop := code.clearsByLoop
  zero := (code.zero, 0)
  compare := code.compare
  two_le_itemSize := code.two_le_itemSize
  compare_eq_zero_iff := code.compare_eq_zero_iff

/-- The number of the string in a slot. -/
def mark (slot : code.marked.Slot) : ℕ := slot.data.2

/-- The call with the copy that it makes numbered. -/
def ListOp.marked (number : ℕ) : ListOp code.marked → ListOp code.marked
  | .append name data alloc => .append name (data.1, number) alloc
  | .insert index name data alloc => .insert index name (data.1, number) alloc
  | op => op

/-- The number of copies that a call has made: one, if it adds an item and does not return 0. -/
def ListOp.copies (op : ListOp code) (out : ListOut code) : ℕ :=
  match op.added, out with
  | some _, .ret ret => if ret = 0 then 0 else 1
  | _, _ => 0

/-- The slots whose strings a loop over the items frees. -/
def freeStrings : ℕ → ℕ → code.Items → Option (List code.Slot)
  | 0, _, _ => some []
  | rounds + 1, i, list =>
      (code.load list i).bind fun item =>
        (freeStrings rounds (i + 1) list).map fun slots =>
          [item].filter (fun slot => slot.name.isSome) ++ slots

/-- The slots whose strings a call frees. -/
def ListOp.frees (list : code.Items) : ListOp code → Option (List code.Slot)
  | .remove index => if list.count ≤ index then some [] else freeStrings 1 index list
  | .clear => freeStrings list.count 0 list
  | .resize newCapacity _ => freeStrings (list.count - newCapacity) newCapacity list
  | _ => some []

/-- `string_list_free`, and the slots whose strings it frees. -/
def freeList (list : code.Items) : Option (List code.Slot) :=
  list.items.bind fun _ => freeStrings list.count 0 list

/-- The loop of `string_list_copy` from the number of the next copy: the next number behind it,
whether all items have been appended, and the new list. -/
def copyStrings (list : code.marked.Items) (allocs : ℕ → Alloc code.marked.Slot) :
    ℕ → ℕ → ℕ → code.marked.Items → Option (ℕ × Bool × code.marked.Items)
  | 0, _, number, copy => some (number, true, copy)
  | rounds + 1, i, number, copy =>
      (code.marked.load list i).bind fun item =>
        match item.name with
        | some name =>
            (code.marked.append copy name (item.data.1, number) (allocs i)).bind fun appended =>
              if appended.1 = 0 then some (number, false, appended.2)
              else copyStrings list allocs rounds (i + 1) (number + 1) appended.2
        | none => copyStrings list allocs rounds (i + 1) number copy

/-- The lists of a program by their numbers, as long as they have not been freed, and the ledger
of their strings. -/
structure ListHeap (code : ListCode) where
  lists : List (Option code.marked.Items)
  ledger : Ledger

namespace ListHeap

def empty : ListHeap code := ⟨[], .empty⟩

/-- The list with the number. -/
def get (heap : ListHeap code) (handle : ℕ) : Option code.marked.Items :=
  heap.lists[handle]?.join

/-- The list with the number becomes this one, and these slots lose their strings. -/
def put (heap : ListHeap code) (handle : ℕ) (list : Option code.marked.Items) (copies : ℕ)
    (frees : List code.marked.Slot) : ListHeap code :=
  ⟨heap.lists.set handle list, (heap.ledger.grow copies).free (frees.map mark)⟩

/-- A new list. -/
def add (heap : ListHeap code) (list : code.marked.Items) (number : ℕ) : ListHeap code :=
  ⟨heap.lists ++ [some list], heap.ledger.grow (number - heap.ledger.next)⟩

end ListHeap

/-- A call of a program. -/
inductive HeapOp (code : ListCode)
  | create (initialCapacity : ℕ) (alloc : Alloc code.marked.Slot)
  | copy (handle : ℕ) (alloc : Alloc code.marked.Slot) (allocs : ℕ → Alloc code.marked.Slot)
  | on (handle : ℕ) (op : ListOp code.marked)
  | sort (handle : ℕ) (sorter : code.marked.SlotSorter)
  | unique (handle : ℕ) (sorter : code.marked.SlotSorter)
  | free (handle : ℕ)

/-- A call. On a list that is not there, it is undefined. -/
def heapStep (heap : ListHeap code) : HeapOp code → Option (ListHeap code)
  | .create initialCapacity alloc =>
      (code.marked.create initialCapacity alloc).map fun created =>
        match created with
        | none => heap
        | some list => heap.add list heap.ledger.next
  | .copy handle alloc allocs =>
      (heap.get handle).bind fun list =>
        (code.marked.create list.capacity alloc).bind fun created =>
          match created with
          | none => some heap
          | some new =>
              (copyStrings list allocs list.count 0 heap.ledger.next new).bind fun out =>
                if out.2.1 then some (heap.add out.2.2 out.1)
                else
                  -- The copy is not complete, and is freed.
                  (freeList out.2.2).map fun frees =>
                    ⟨heap.lists,
                      (heap.ledger.grow (out.1 - heap.ledger.next)).free (frees.map mark)⟩
  | .on handle op =>
      (heap.get handle).bind fun list =>
        (op.frees list).bind fun frees =>
          (listStep list (op.marked heap.ledger.next)).map fun out =>
            heap.put handle (some out.2) (op.copies out.1) frees
  | .sort handle sorter =>
      (heap.get handle).bind fun list =>
        (code.marked.sort list sorter).map fun sorted => heap.put handle (some sorted) 0 []
  | .unique handle sorter =>
      (heap.get handle).bind fun list =>
        (code.marked.frees list sorter).map fun out => heap.put handle (some out.2) 0 out.1
  | .free handle =>
      (heap.get handle).bind fun list =>
        (freeList list).map fun frees => heap.put handle none 0 frees

section Frees

variable {list list' : code.Items} {entries : List code.Entry} {slots : List code.Slot}

theorem freeStrings_eq (count capacity : ℕ) (before : List code.Slot) (entries : List code.Entry)
    (after : List code.Slot) :
    freeStrings entries.length before.length
        (⟨count, capacity, some (before ++ (entries.map slotOf ++ after))⟩ : code.Items) =
      some (entries.map slotOf) := by
  induction entries generalizing before with
  | nil => rfl
  | cons entry entries ih =>
      have hload := load_eq count capacity before (entries.map slotOf ++ after) (slotOf entry)
      have hrest := ih (before ++ [slotOf entry])
      simp only [List.append_assoc, List.singleton_append, List.length_append,
        List.length_singleton] at hrest
      rw [List.length_cons, freeStrings, List.map_cons, List.cons_append, hload, Option.bind_some,
        hrest]
      rfl

/-- The strings of the last items of a list. -/
theorem Holds.freeStrings (hlist : Holds list entries slots) (newCapacity : ℕ) :
    freeStrings (list.count - newCapacity) newCapacity list =
      some ((entries.drop newCapacity).map slotOf) := by
  obtain ⟨behind, rfl, hlist'⟩ := hlist.exists_behind
  rw [hlist.count_eq]
  by_cases hle : newCapacity ≤ entries.length
  · obtain ⟨before, after, rfl, rfl⟩ := exists_cut hle
    have hfree := freeStrings_eq (before ++ after).length list.capacity (before.map slotOf) after
      behind
    rw [List.length_map, ← List.append_assoc, ← List.map_append, ← hlist'] at hfree
    rw [List.length_append, Nat.add_sub_cancel_left, List.drop_left]
    exact hfree
  · rw [Nat.sub_eq_zero_of_le (Nat.le_of_not_le hle), List.drop_of_length_le (Nat.le_of_not_le hle)]
    rfl

/-- **`string_list_free`** frees the strings of all items. -/
theorem Holds.freeList (hlist : Holds list entries slots) :
    freeList list = some (entries.map slotOf) := by
  have hfree := hlist.freeStrings 0
  rw [Nat.sub_zero, List.drop_zero] at hfree
  rw [ListCode.freeList, hlist.items_eq, Option.bind_some, hfree]

/-- `string_list_remove` frees the string of one item. -/
theorem Holds.freeStrings_one {before after : List code.Entry} {entry : code.Entry}
    (hlist : Holds list (before ++ entry :: after) slots) :
    ListCode.freeStrings 1 before.length list = some [slotOf entry] := by
  rw [ListCode.freeStrings, hlist.load]
  rfl

/-- An item that is there is removed. -/
theorem remove_ne_zero {index : ℕ}
    (hindex : index < list.count) : code.remove list index ≠ some (0, list') := by
  intro hremove
  rw [ListCode.remove, if_neg (Nat.not_le.mpr hindex)] at hremove
  obtain ⟨_, -, hshift⟩ := Option.bind_eq_some_iff.mp hremove
  obtain ⟨_, -, hstore⟩ := Option.bind_eq_some_iff.mp hshift
  obtain ⟨_, -, hout⟩ := Option.map_eq_some_iff.mp hstore
  exact absurd (Prod.mk.inj hout).1 (by decide)

/-- Without an array there is nothing to free. -/
theorem freeStrings_gone (hgone : list.items = none) {rounds i : ℕ}
    (hfrees : ListCode.freeStrings rounds i list = some slots) : slots = [] := by
  cases rounds with
  | zero => exact (Option.some.inj hfrees).symm
  | succ rounds =>
      rw [ListCode.freeStrings, load_gone hgone] at hfrees
      cases hfrees

theorem frees_gone (hgone : list.items = none) {op : ListOp code}
    (hfrees : op.frees list = some slots) : slots = [] := by
  cases op with
  | remove index =>
      rw [ListOp.frees] at hfrees
      split_ifs at hfrees
      · exact (Option.some.inj hfrees).symm
      · exact freeStrings_gone hgone hfrees
  | clear => exact freeStrings_gone hgone hfrees
  | resize => exact freeStrings_gone hgone hfrees
  | append => exact (Option.some.inj hfrees).symm
  | insert => exact (Option.some.inj hfrees).symm
  | get => exact (Option.some.inj hfrees).symm
  | size => exact (Option.some.inj hfrees).symm
  | find => exact (Option.some.inj hfrees).symm

end Frees

/-! ## What a call does to the numbers -/

section Numbers

variable {list list' : code.marked.Items} {entries : List code.marked.Entry}
  {slots : List code.marked.Slot}

/-- The numbers of the strings of a list. -/
def numbers (entries : List code.marked.Entry) : List ℕ := entries.map fun entry => entry.2.2

theorem map_mark (entries : List code.marked.Entry) :
    (entries.map slotOf).map mark = numbers entries := by
  rw [List.map_map]
  rfl

/-- The numbers `kept` are those of the list, or the list has no array. -/
def Keeps (list : code.marked.Items) (kept : List ℕ) : Prop :=
  list.items = none ∨ ∃ entries slots, Holds list entries slots ∧ numbers entries = kept

/-- All these numbers are freed or kept, and none of them twice. -/
def Divides (list : code.marked.Items) (frees : List code.marked.Slot) (all : List ℕ) : Prop :=
  ∃ kept, Keeps list kept ∧ (frees.map mark ++ kept).Perm all

section Calls

variable {number : ℕ} {ret : ℤ} {index : ℕ} {name : code.Text} {data : code.Data × ℕ}
  {alloc : Alloc code.marked.Slot} {frees : List code.marked.Slot}

/-- A call that adds nothing and frees nothing. -/
theorem Keeps.divides (hkeeps : Keeps list' (numbers entries)) (number : ℕ) :
    Divides list' [] (numbers entries ++ List.range' number 0) := by
  refine ⟨_, hkeeps, ?_⟩
  rw [List.range'_zero, List.append_nil]
  exact .refl _

theorem Holds.keeps (hlist : Holds list entries slots) : Keeps list (numbers entries) :=
  .inr ⟨entries, slots, hlist, rfl⟩

/-- `string_list_append` keeps the numbers, and that of the copy if it does not fail. -/
theorem Holds.append_numbers (hlist : Holds list entries slots)
    (happend : code.marked.append list name (data.1, number) alloc = some (ret, list')) :
    Divides list' [] (numbers entries ++ List.range' number (if ret = 0 then 0 else 1)) := by
  rcases hlist.append_cases happend with
    ⟨rfl, slots', hlist'⟩ | ⟨rfl, slots', hlist'⟩ | ⟨rfl, rfl, -⟩
  · refine ⟨_, hlist'.keeps, ?_⟩
    rw [numbers, List.map_append]
    exact .refl _
  · exact hlist'.keeps.divides number
  · exact Keeps.divides (.inl rfl) number

/-- `string_list_insert` does the same. -/
theorem Holds.insert_numbers (hlist : Holds list entries slots)
    (hinsert : code.marked.insert list index name (data.1, number) alloc = some (ret, list')) :
    Divides list' [] (numbers entries ++ List.range' number (if ret = 0 then 0 else 1)) := by
  by_cases hindex : list.count < index
  · rw [ListCode.insert, if_pos hindex] at hinsert
    obtain ⟨rfl, rfl⟩ := Prod.mk.inj (Option.some.inj hinsert)
    exact hlist.keeps.divides number
  rw [hlist.count_eq, Nat.not_lt] at hindex
  rcases hlist.insert_cases hinsert with
    ⟨rfl, slots', hlist'⟩ | ⟨rfl, slots', hlist'⟩ | ⟨rfl, rfl, -⟩
  · refine ⟨_, hlist'.keeps, ?_⟩
    have hperm := (List.perm_insertIdx (name, (data.1, number)) entries hindex).map
      fun entry => entry.2.2
    exact hperm.trans (List.perm_append_singleton _ _).symm
  · exact hlist'.keeps.divides number
  · exact Keeps.divides (.inl rfl) number

/-- `string_list_remove` frees one number and keeps the others. -/
theorem Holds.remove_numbers (hlist : Holds list entries slots)
    (hfrees : (ListOp.remove index).frees list = some frees)
    (hremove : code.marked.remove list index = some (ret, list')) :
    Divides list' frees (numbers entries ++ List.range' number 0) := by
  rw [ListOp.frees] at hfrees
  by_cases hindex : list.count ≤ index
  · rw [if_pos hindex] at hfrees
    rw [ListCode.remove, if_pos hindex] at hremove
    obtain rfl := Option.some.inj hfrees
    obtain ⟨rfl, rfl⟩ := Prod.mk.inj (Option.some.inj hremove)
    exact hlist.keeps.divides number
  · rw [if_neg hindex] at hfrees
    have hlt := Nat.lt_of_not_le hindex
    rw [hlist.count_eq] at hlt
    obtain ⟨before, after, rfl, rfl⟩ := exists_cut hlt.le
    cases after with
    | nil => simp at hlt
    | cons entry after =>
        rw [hlist.freeStrings_one] at hfrees
        obtain rfl := Option.some.inj hfrees
        rcases hlist.remove_cases hremove with ⟨-, slots', hlist'⟩ | ⟨rfl, -⟩
        · refine ⟨_, hlist'.keeps, ?_⟩
          have hmiddle : (entry :: (before ++ after)).Perm (before ++ entry :: after) :=
            List.perm_middle.symm
          rw [List.eraseIdx_append_of_length_le le_rfl, Nat.sub_self, List.eraseIdx_cons_zero]
          exact (hmiddle.map fun entry => entry.2.2).trans (.of_eq (List.append_nil _).symm)
        · exact absurd hremove (remove_ne_zero (Nat.lt_of_not_le hindex))

/-- `string_list_clear` frees all numbers. -/
theorem Holds.clear_numbers (hlist : Holds list entries slots)
    (hfrees : ListOp.clear.frees list = some frees)
    (hclear : code.marked.clear list = some list') :
    Divides list' frees (numbers entries ++ List.range' number 0) := by
  have hall := hlist.freeStrings 0
  rw [Nat.sub_zero, List.drop_zero] at hall
  obtain rfl := Option.some.inj (hall.symm.trans hfrees)
  obtain ⟨slots', hlist'⟩ := hlist.clear_cases hclear
  refine ⟨[], .inr ⟨[], slots', hlist', rfl⟩, ?_⟩
  rw [map_mark]
  exact .refl _

/-- `string_list_resize` frees the numbers that the new capacity has no room for, also when it
fails. -/
theorem Holds.resize_numbers (hlist : Holds list entries slots) {newCapacity : ℕ}
    (hfrees : (ListOp.resize newCapacity alloc).frees list = some frees)
    (hresize : code.marked.resize list newCapacity alloc = some (ret, list')) :
    Divides list' frees (numbers entries ++ List.range' number 0) := by
  obtain rfl := Option.some.inj ((hlist.freeStrings newCapacity).symm.trans hfrees)
  have hsplit : (((entries.drop newCapacity).map slotOf).map mark ++
      numbers (entries.take newCapacity)).Perm (numbers entries ++ List.range' number 0) := by
    rw [map_mark, List.range'_zero, List.append_nil, numbers, numbers, numbers,
      ← List.map_append]
    exact (List.perm_append_comm.trans (.of_eq (List.take_append_drop _ _))).map _
  rcases hlist.resize_cases hresize with ⟨-, slots', hlist'⟩ | ⟨-, -, -, rfl⟩ | ⟨-, -, -, hgone⟩
  · exact ⟨_, hlist'.keeps, hsplit⟩
  · exact ⟨_, (hlist.take newCapacity).keeps, hsplit⟩
  · exact ⟨_, .inl hgone, hsplit⟩

/-- **What a call does to the numbers**: those of the list and of the copy that the call makes are
freed or kept, and none of them twice. -/
theorem Holds.listStep_numbers (hlist : Holds list entries slots) {op : ListOp code.marked}
    {out : ListOut code.marked} (hfrees : op.frees list = some frees)
    (hstep : listStep list (op.marked number) = some (out, list')) :
    Divides list' frees (numbers entries ++ List.range' number (op.copies out)) := by
  cases op with
  | append name data alloc =>
      obtain rfl := Option.some.inj hfrees
      obtain ⟨⟨ret, appended⟩, happend, hout⟩ := Option.map_eq_some_iff.mp hstep
      obtain ⟨rfl, rfl⟩ := Prod.mk.inj hout
      exact hlist.append_numbers happend
  | insert index name data alloc =>
      obtain rfl := Option.some.inj hfrees
      obtain ⟨⟨ret, inserted⟩, hinsert, hout⟩ := Option.map_eq_some_iff.mp hstep
      obtain ⟨rfl, rfl⟩ := Prod.mk.inj hout
      exact hlist.insert_numbers hinsert
  | remove index =>
      obtain ⟨⟨ret, removed⟩, hremove, hout⟩ := Option.map_eq_some_iff.mp hstep
      obtain ⟨rfl, rfl⟩ := Prod.mk.inj hout
      exact hlist.remove_numbers hfrees hremove
  | clear =>
      obtain ⟨cleared, hclear, hout⟩ := Option.map_eq_some_iff.mp hstep
      obtain ⟨rfl, rfl⟩ := Prod.mk.inj hout
      exact hlist.clear_numbers hfrees hclear
  | resize newCapacity alloc =>
      obtain ⟨⟨ret, resized⟩, hresize, hout⟩ := Option.map_eq_some_iff.mp hstep
      obtain ⟨rfl, rfl⟩ := Prod.mk.inj hout
      exact hlist.resize_numbers hfrees hresize
  | get index =>
      obtain rfl := Option.some.inj hfrees
      obtain ⟨slot, -, hout⟩ := Option.map_eq_some_iff.mp hstep
      obtain ⟨rfl, rfl⟩ := Prod.mk.inj hout
      exact hlist.keeps.divides number
  | size =>
      obtain rfl := Option.some.inj hfrees
      obtain ⟨rfl, rfl⟩ := Prod.mk.inj (Option.some.inj hstep)
      exact hlist.keeps.divides number
  | find text =>
      obtain rfl := Option.some.inj hfrees
      obtain ⟨index, -, hout⟩ := Option.map_eq_some_iff.mp hstep
      obtain ⟨rfl, rfl⟩ := Prod.mk.inj hout
      exact hlist.keeps.divides number

end Calls

/-- Without an array nothing is freed, and there is none afterwards. -/
theorem listStep_numbers_gone (hgone : list.items = none) {op : ListOp code.marked} {number : ℕ}
    {frees : List code.marked.Slot} {out : ListOut code.marked}
    (hfrees : op.frees list = some frees)
    (hstep : listStep list (op.marked number) = some (out, list')) :
    frees = [] ∧ list'.items = none :=
  ⟨frees_gone hgone hfrees, (listStep_gone hgone hstep).1⟩

/-- `string_list_sort` moves the numbers. -/
theorem Holds.sort_numbers (hlist : Holds list entries slots) {sorter : code.marked.SlotSorter}
    (hsort : code.marked.sort list sorter = some list') :
    Divides list' [] (numbers entries) := by
  obtain ⟨sorted, slots', hlist', hperm⟩ := hlist.sort_cases hsort
  exact ⟨_, hlist'.keeps, hperm.map _⟩

/-- `string_list_unique` frees numbers and keeps the others. -/
theorem Holds.unique_numbers (hlist : Holds list entries slots) {sorter : code.marked.SlotSorter}
    {frees : List code.marked.Slot}
    (hunique : code.marked.frees list sorter = some (frees, list')) :
    Divides list' frees (numbers entries) := by
  obtain ⟨behind, rfl, hlist'⟩ := hlist.exists_behind
  obtain ⟨freed, sorted, gap, hperm, -, hall, hgap, hfrees⟩ := frees_behind list.capacity entries
    behind sorter
  rw [hlist', hfrees] at hunique
  obtain ⟨rfl, rfl⟩ := Prod.mk.inj (Option.some.inj hunique)
  have hlength : ((sorted.destutter Differ).map slotOf ++
      (List.replicate gap code.marked.null ++ behind)).length =
      (entries.map slotOf ++ behind).length := by
    simp only [List.length_append, List.length_map, List.length_replicate]
    omega
  refine ⟨_, .inr ⟨_, _, hlist.fewer (by omega) hlength, rfl⟩, ?_⟩
  rw [map_mark, numbers, numbers, numbers, ← List.map_append]
  exact hall.map _

/-- The copies that the loop of `string_list_copy` makes. -/
theorem copyStrings_numbers {copy copy' : code.marked.Items}
    {allocs : ℕ → Alloc code.marked.Slot} {before : List code.marked.Entry}
    {slots' : List code.marked.Slot} {rounds i number number' : ℕ} {complete : Bool}
    (hcopy : Holds copy before slots')
    (hcopied : copyStrings list allocs rounds i number copy = some (number', complete, copy')) :
    number ≤ number' ∧ ∃ kept, Keeps copy' kept ∧
      (numbers before ++ List.range' number (number' - number)).Perm kept := by
  induction rounds generalizing i number copy before slots' with
  | zero =>
      obtain ⟨rfl, hout⟩ := Prod.mk.inj (Option.some.inj hcopied)
      obtain ⟨-, rfl⟩ := Prod.mk.inj hout
      refine ⟨le_rfl, _, .inr ⟨before, slots', hcopy, rfl⟩, ?_⟩
      rw [Nat.sub_self, List.range'_zero, List.append_nil]
  | succ rounds ih =>
      obtain ⟨item, -, hrest⟩ := Option.bind_eq_some_iff.mp hcopied
      cases hname : item.name with
      | none =>
          rw [hname] at hrest
          exact ih hcopy hrest
      | some name =>
          rw [hname] at hrest
          obtain ⟨⟨ret, appended⟩, happend, hloop⟩ := Option.bind_eq_some_iff.mp hrest
          rcases hcopy.append_cases happend with
            ⟨rfl, slots'', happended⟩ | ⟨rfl, slots'', happended⟩ | ⟨rfl, rfl, -⟩
          · rw [if_neg Int.one_ne_zero] at hloop
            obtain ⟨hle, kept, hkept, hperm⟩ := ih happended hloop
            refine ⟨by omega, kept, hkept, List.Perm.trans (.of_eq ?_) hperm⟩
            have hnumber : number' - number = (number' - (number + 1)) + 1 := by omega
            rw [hnumber, List.range'_succ, numbers, numbers, List.map_append, List.append_assoc]
            rfl
          · rw [if_pos rfl] at hloop
            obtain ⟨rfl, hout⟩ := Prod.mk.inj (Option.some.inj hloop)
            obtain ⟨-, rfl⟩ := Prod.mk.inj hout
            refine ⟨le_rfl, _, .inr ⟨before, slots'', happended, rfl⟩, ?_⟩
            rw [Nat.sub_self, List.range'_zero, List.append_nil]
          · rw [if_pos rfl] at hloop
            obtain ⟨rfl, hout⟩ := Prod.mk.inj (Option.some.inj hloop)
            obtain ⟨-, rfl⟩ := Prod.mk.inj hout
            refine ⟨le_rfl, numbers before, .inl rfl, ?_⟩
            rw [Nat.sub_self, List.range'_zero, List.append_nil]

end Numbers

/-! ## All programs -/

/-- The numbers of the strings in the list of a program, as long as it has its array. -/
def heldBy : Option code.marked.Items → List ℕ
  | none => []
  | some list =>
      match list.items with
      | none => []
      | some slots => (slots.take list.count).map mark

/-- The list has its items in front of its array, or the array has been freed. -/
def Sound (list : code.marked.Items) : Prop :=
  list.items = none ∨ ∃ entries slots, Holds list entries slots

theorem Holds.heldBy {list : code.marked.Items} {entries : List code.marked.Entry}
    {slots : List code.marked.Slot} (hlist : Holds list entries slots) :
    heldBy (some list) = numbers entries := by
  obtain ⟨behind, rfl, hlist'⟩ := hlist.exists_behind
  rw [hlist', ListCode.heldBy]
  dsimp only
  rw [List.take_left' (List.length_map _), map_mark]

/-- What is known of the numbers of a program, with those lost: they were in lists whose arrays
have been freed. -/
structure Accounts (heap : ListHeap code) (lost : List ℕ) : Prop where
  sound : ∀ list, some list ∈ heap.lists → Sound list
  balances : heap.ledger.Balances (lost ++ heap.lists.flatMap heldBy)
  lost : lost ≠ [] → ∃ list, some list ∈ heap.lists ∧ list.items = none

theorem accounts_empty : Accounts (ListHeap.empty : ListHeap code) [] where
  sound := fun _ hlist => by cases hlist
  balances := Ledger.balances_empty
  lost := fun hne => absurd rfl hne

theorem Keeps.sound {list : code.marked.Items} {kept : List ℕ} (hkeeps : Keeps list kept) :
    Sound list := by
  rcases hkeeps with hgone | ⟨entries, slots, hlist, -⟩
  · exact .inl hgone
  · exact .inr ⟨entries, slots, hlist⟩

section Heap

variable {heap : ListHeap code} {lost kept : List ℕ} {handle : ℕ} {list : code.marked.Items}

/-- Where the list with a number is. -/
theorem ListHeap.exists_get (hget : heap.get handle = some list) :
    ∃ before after, heap.lists = before ++ some list :: after ∧ before.length = handle := by
  have hlist : heap.lists[handle]? = some (some list) := by
    rw [ListHeap.get] at hget
    exact Option.join_eq_some_iff.mp hget
  obtain ⟨hlt, hlist⟩ := List.getElem?_eq_some_iff.mp hlist
  refine ⟨heap.lists.take handle, heap.lists.drop (handle + 1), ?_, by simp [hlt.le]⟩
  rw [← hlist, List.cons_getElem_drop_succ, List.take_append_drop]

/-- **A list becomes another one.** -/
theorem Accounts.put (haccounts : Accounts heap lost) (hget : heap.get handle = some list)
    {new : Option code.marked.Items} {copies : ℕ} {frees : List code.marked.Slot}
    (hperm : (frees.map mark ++ kept).Perm
      (heldBy (some list) ++ List.range' heap.ledger.next copies))
    (hnew : ∀ list', new = some list' → Keeps list' kept)
    (hfreed : new = none → kept = [] ∧ list.items ≠ none)
    (hgone : list.items = none → ∃ list', new = some list' ∧ list'.items = none) :
    ∃ lost', Accounts (heap.put handle new copies frees) lost' := by
  obtain ⟨before, after, hlists, rfl⟩ := heap.exists_get hget
  obtain ⟨hsound, hbalances, hlost⟩ := haccounts
  have hput : (heap.put before.length new copies frees).lists = before ++ new :: after := by
    rw [ListHeap.put, hlists, List.set_append_right _ _ le_rfl, Nat.sub_self]
    rfl
  have hsound' : ∀ list', some list' ∈ before ++ new :: after → Sound list' := by
    intro list' hmem
    rcases List.mem_append.mp hmem with hmem | hmem
    · exact hsound list' (hlists ▸ List.mem_append_left _ hmem)
    · rcases List.mem_cons.mp hmem with hsame | hmem
      · exact (hnew list' hsame.symm).sound
      · exact hsound list' (hlists ▸ List.mem_append_right _ (List.mem_cons_of_mem _ hmem))
  have hledger : ((heap.ledger.grow copies).free (frees.map mark)).Balances
      (lost ++ (before.flatMap heldBy ++ (kept ++ after.flatMap heldBy))) := by
    have hgrown := hbalances.grow copies
    rw [hlists, List.flatMap_append, List.flatMap_cons] at hgrown
    refine Ledger.Balances.free (hgrown.perm (List.perm_iff_count.mpr fun number => ?_))
    have hcount := hperm.count_eq number
    simp only [List.count_append] at hcount ⊢
    omega
  have hflat : (heap.put before.length new copies frees).lists.flatMap heldBy =
      before.flatMap heldBy ++ (heldBy new ++ after.flatMap heldBy) := by
    rw [hput, List.flatMap_append, List.flatMap_cons]
  by_cases hkept : heldBy new = kept
  · refine ⟨lost, hput ▸ hsound', ?_, fun hne => ?_⟩
    · rw [hflat, hkept]
      exact hledger
    · obtain ⟨other, hmem, hother⟩ := hlost hne
      rw [hput]
      rw [hlists] at hmem
      rcases List.mem_append.mp hmem with hmem | hmem
      · exact ⟨other, List.mem_append_left _ hmem, hother⟩
      · rcases List.mem_cons.mp hmem with hsame | hmem
        · obtain ⟨list', rfl, hlist'⟩ := hgone (Option.some.inj hsame ▸ hother)
          exact ⟨list', List.mem_append_right _ List.mem_cons_self, hlist'⟩
        · exact ⟨other, List.mem_append_right _ (List.mem_cons_of_mem _ hmem), hother⟩
  · -- The array of the list is gone, and its numbers are lost.
    cases new with
    | none => exact absurd (hfreed rfl).1.symm hkept
    | some list' =>
        rcases hnew list' rfl with hlist' | ⟨entries, slots, hlist', hnumbers⟩
        · refine ⟨lost ++ kept, hput ▸ hsound', ?_, fun _ => ?_⟩
          · have hnothing : heldBy (some list') = [] := by rw [heldBy, hlist']
            rw [hflat, hnothing]
            refine hledger.perm (List.perm_iff_count.mpr fun number => ?_)
            simp only [List.count_append, List.count_nil]
            omega
          · exact ⟨list', hput ▸ List.mem_append_right _ List.mem_cons_self, hlist'⟩
        · exact absurd (hlist'.heldBy.trans hnumbers) hkept

/-- **A new list.** -/
theorem Accounts.add (haccounts : Accounts heap lost) {number : ℕ} (hkeeps : Keeps list kept)
    (hkept : (List.range' heap.ledger.next (number - heap.ledger.next)).Perm kept) :
    ∃ lost', Accounts (heap.add list number) lost' := by
  obtain ⟨hsound, hbalances, hlost⟩ := haccounts
  have hlists : (heap.add list number).lists = heap.lists ++ [some list] := rfl
  have hsound' : ∀ list', some list' ∈ heap.lists ++ [some list] → Sound list' := by
    intro list' hmem
    rcases List.mem_append.mp hmem with hmem | hmem
    · exact hsound list' hmem
    · obtain rfl := Option.some.inj (List.mem_singleton.mp hmem)
      exact hkeeps.sound
  have hgrown := hbalances.grow (number - heap.ledger.next)
  have hflat : (heap.add list number).lists.flatMap heldBy =
      heap.lists.flatMap heldBy ++ heldBy (some list) := by
    rw [hlists, List.flatMap_append, List.flatMap_singleton]
  rcases hkeeps with hgone | ⟨entries, slots, hlist, rfl⟩
  · refine ⟨lost ++ kept, hsound', ?_, fun _ => ?_⟩
    · have hnothing : heldBy (some list) = [] := by rw [heldBy, hgone]
      rw [hflat, hnothing]
      refine hgrown.perm (List.perm_iff_count.mpr fun number => ?_)
      have hcount := hkept.count_eq number
      simp only [List.count_append, List.count_nil]
      omega
    · exact ⟨list, List.mem_append_right _ (List.mem_singleton_self _), hgone⟩
  · refine ⟨lost, hsound', ?_, fun hne => ?_⟩
    · rw [hflat, hlist.heldBy]
      refine hgrown.perm (List.perm_iff_count.mpr fun number => ?_)
      have hcount := hkept.count_eq number
      simp only [List.count_append]
      omega
    · obtain ⟨other, hmem, hother⟩ := hlost hne
      exact ⟨other, List.mem_append_left _ hmem, hother⟩

/-- The list with a number is sound. -/
theorem Accounts.get (haccounts : Accounts heap lost) (hget : heap.get handle = some list) :
    Sound list := by
  obtain ⟨before, after, hlists, -⟩ := heap.exists_get hget
  exact haccounts.sound list (hlists ▸ List.mem_append_right _ List.mem_cons_self)

/-- Without an array there are no numbers. -/
theorem heldBy_gone (hgone : list.items = none) : heldBy (some list) = [] := by
  rw [heldBy, hgone]

/-- A list without an array stays one. -/
theorem Accounts.put_gone (haccounts : Accounts heap lost) (hget : heap.get handle = some list)
    (hgone : list.items = none) {list' : code.marked.Items} (hgone' : list'.items = none)
    (copies : ℕ) : ∃ lost', Accounts (heap.put handle (some list') copies []) lost' := by
  have hperm : (([] : List code.marked.Slot).map mark ++ List.range' heap.ledger.next copies).Perm
      (heldBy (some list) ++ List.range' heap.ledger.next copies) := by
    rw [heldBy_gone hgone]
    exact .refl _
  refine haccounts.put hget hperm (fun new hnew => ?_) (fun hnone => by cases hnone) fun _ => ?_
  · exact .inl (Option.some.inj hnew ▸ hgone')
  · exact ⟨list', rfl, hgone'⟩

/-- A list with its items keeps the numbers that are not freed. -/
theorem Accounts.put_holds (haccounts : Accounts heap lost) (hget : heap.get handle = some list)
    {entries : List code.marked.Entry} {slots frees : List code.marked.Slot}
    (hlist : Holds list entries slots) {list' : code.marked.Items} {copies : ℕ}
    (hdivides : Divides list' frees (numbers entries ++ List.range' heap.ledger.next copies)) :
    ∃ lost', Accounts (heap.put handle (some list') copies frees) lost' := by
  obtain ⟨kept, hkeeps, hperm⟩ := hdivides
  rw [← hlist.heldBy] at hperm
  refine haccounts.put hget hperm (fun new hnew => ?_) (fun hnone => by cases hnone) fun hgone => ?_
  · exact Option.some.inj hnew ▸ hkeeps
  · rw [hlist.items_eq] at hgone
    cases hgone

/-- A new list holds nothing. -/
theorem Accounts.create_call {heap' : ListHeap code} (haccounts : Accounts heap lost)
    {initialCapacity : ℕ} {alloc : Alloc code.marked.Slot}
    (hstep : heapStep heap (.create initialCapacity alloc) = some heap') :
    ∃ lost', Accounts heap' lost' := by
  obtain ⟨created, hcreate, hout⟩ := Option.map_eq_some_iff.mp hstep
  cases created with
  | none => exact ⟨lost, hout ▸ haccounts⟩
  | some list =>
      obtain ⟨slots, hlist⟩ := create_cases hcreate
      obtain rfl := hout
      refine haccounts.add (.inr ⟨[], slots, hlist, rfl⟩) ?_
      rw [Nat.sub_self]
      exact .refl _

/-- A copy holds its own strings, or has freed them. -/
theorem Accounts.copy_call {heap' : ListHeap code} (haccounts : Accounts heap lost)
    {alloc : Alloc code.marked.Slot} {allocs : ℕ → Alloc code.marked.Slot}
    (hstep : heapStep heap (.copy handle alloc allocs) = some heap') :
    ∃ lost', Accounts heap' lost' := by
  obtain ⟨list, hget, hcopy⟩ := Option.bind_eq_some_iff.mp hstep
  obtain ⟨created, hcreate, hrest⟩ := Option.bind_eq_some_iff.mp hcopy
  cases created with
  | none => exact ⟨lost, Option.some.inj hrest ▸ haccounts⟩
  | some new =>
      obtain ⟨slots, hnew⟩ := create_cases hcreate
      obtain ⟨⟨number, complete, copy⟩, hcopied, hout⟩ := Option.bind_eq_some_iff.mp hrest
      obtain ⟨-, kept, hkept, hperm⟩ := copyStrings_numbers hnew hcopied
      cases complete with
      | true =>
          obtain rfl := Option.some.inj hout
          exact haccounts.add hkept hperm
      | false =>
          obtain ⟨frees, hfree, rfl⟩ := Option.map_eq_some_iff.mp hout
          rcases hkept with hgone | ⟨entries, slots', hlist, rfl⟩
          · rw [freeList, hgone] at hfree
            cases hfree
          · obtain rfl := Option.some.inj (hlist.freeList.symm.trans hfree)
            refine ⟨lost, haccounts.sound, Ledger.Balances.free ?_, haccounts.lost⟩
            rw [map_mark]
            refine (haccounts.balances.grow _).perm (List.perm_iff_count.mpr fun number => ?_)
            have hcount := hperm.count_eq number
            simp only [List.count_append, numbers, List.map_nil, List.count_nil] at hcount ⊢
            omega

/-- The strings of a list are freed with it. -/
theorem Accounts.free_call {heap' : ListHeap code} (haccounts : Accounts heap lost)
    (hstep : heapStep heap (.free handle) = some heap') : ∃ lost', Accounts heap' lost' := by
  obtain ⟨list, hget, hcall⟩ := Option.bind_eq_some_iff.mp hstep
  obtain ⟨frees, hfree, rfl⟩ := Option.map_eq_some_iff.mp hcall
  have harray : list.items ≠ none := by
    intro hgone
    rw [freeList, hgone] at hfree
    cases hfree
  obtain ⟨entries, slots, hlist⟩ := (haccounts.get hget).resolve_left harray
  obtain rfl := Option.some.inj (hlist.freeList.symm.trans hfree)
  have hperm : ((entries.map slotOf).map mark ++ []).Perm
      (heldBy (some list) ++ List.range' heap.ledger.next 0) := by
    rw [map_mark, hlist.heldBy]
    exact .refl _
  exact haccounts.put hget hperm (fun new hnew => by cases hnew) (fun _ => ⟨rfl, harray⟩)
    fun hgone => absurd hgone harray

/-- **The step lemma**: what is known of the numbers is known after each call. -/
theorem Accounts.heapStep {heap' : ListHeap code} (haccounts : Accounts heap lost)
    {op : HeapOp code} (hstep : heapStep heap op = some heap') :
    ∃ lost', Accounts heap' lost' := by
  cases op with
  | create initialCapacity alloc => exact haccounts.create_call hstep
  | copy handle alloc allocs => exact haccounts.copy_call hstep
  | on handle op =>
      obtain ⟨list, hget, hcall⟩ := Option.bind_eq_some_iff.mp hstep
      obtain ⟨frees, hfrees, hcall⟩ := Option.bind_eq_some_iff.mp hcall
      obtain ⟨⟨out, list'⟩, hlist', rfl⟩ := Option.map_eq_some_iff.mp hcall
      rcases haccounts.get hget with hgone | ⟨entries, slots, hlist⟩
      · obtain ⟨rfl, hgone'⟩ := listStep_numbers_gone hgone hfrees hlist'
        exact haccounts.put_gone hget hgone hgone' _
      · exact haccounts.put_holds hget hlist (hlist.listStep_numbers hfrees hlist')
  | sort handle sorter =>
      obtain ⟨list, hget, hcall⟩ := Option.bind_eq_some_iff.mp hstep
      obtain ⟨sorted, hsort, rfl⟩ := Option.map_eq_some_iff.mp hcall
      rcases haccounts.get hget with hgone | ⟨entries, slots, hlist⟩
      · exact haccounts.put_gone hget hgone (sort_gone hgone hsort ▸ hgone) 0
      · have hdivides := hlist.sort_numbers hsort
        rw [← List.append_nil (numbers entries)] at hdivides
        exact haccounts.put_holds hget hlist hdivides
  | unique handle sorter =>
      obtain ⟨list, hget, hcall⟩ := Option.bind_eq_some_iff.mp hstep
      obtain ⟨⟨frees, list'⟩, hunique, rfl⟩ := Option.map_eq_some_iff.mp hcall
      rcases haccounts.get hget with hgone | ⟨entries, slots, hlist⟩
      · obtain ⟨rfl, rfl⟩ := Prod.mk.inj (frees_eq_of_gone hgone hunique)
        exact haccounts.put_gone hget hgone hgone 0
      · have hdivides := hlist.unique_numbers hunique
        rw [← List.append_nil (numbers entries)] at hdivides
        exact haccounts.put_holds hget hlist hdivides
  | free handle => exact haccounts.free_call hstep

end Heap

/-- What a program may rely on: no string is freed twice, no string of a list has been freed, and
when all lists have been freed, each string has been freed once. -/
structure OwnsStrings (heap : ListHeap code) : Prop where
  once : heap.ledger.freed.Nodup
  live : ∀ list, some list ∈ heap.lists → ∀ index slot, index < list.count →
    code.marked.load list index = some slot → mark slot ∉ heap.ledger.freed
  all : (∀ list ∈ heap.lists, list = none) →
    heap.ledger.freed.Perm (List.range heap.ledger.next)

theorem Accounts.ownsStrings {heap : ListHeap code} {lost : List ℕ}
    (haccounts : Accounts heap lost) : OwnsStrings heap where
  once := haccounts.balances.freed_once
  live := by
    intro list hmem index slot hindex hload
    refine haccounts.balances.not_freed (List.mem_append_right _ (List.mem_flatMap.mpr
      ⟨some list, hmem, ?_⟩))
    obtain ⟨slots, hslots, hslot⟩ := Option.bind_eq_some_iff.mp hload
    rw [heldBy, hslots]
    have htake : (slots.take list.count)[index]? = some slot := by
      rwa [List.getElem?_take_of_lt hindex]
    exact List.mem_map_of_mem (List.mem_of_getElem? htake)
  all := by
    intro hfreed
    have hflat : heap.lists.flatMap heldBy = [] := by
      refine List.flatMap_eq_nil_iff.mpr fun list hmem => ?_
      rw [hfreed list hmem]
      rfl
    have hlost : lost = [] := by
      by_contra hne
      obtain ⟨list, hmem, -⟩ := haccounts.lost hne
      cases hfreed _ hmem
    have hbalances := haccounts.balances
    rw [hflat, hlost] at hbalances
    exact hbalances.all_freed

end ListCode

end BasC
