/-
# Growable lists

`string_list.c`, `wstring_list.c`, `fileent_list.c` and `wfileent_list.c` are one data
structure, written four times: an array of slots that doubles when it is full, with a
count of the slots in use. A slot has a pointer to a string of its own and, in the file
lists, a flag. A `ListCode` is what the four files differ in, and each function is a
function of the code: `stringList.append` is `string_list_append`.

A slot outside the array or in an array that has been freed is undefined, and so is a loop
that does not end. The outcome of each allocation and the contents of fresh memory are
arguments.
-/

import BasC.Base.StringCompare

namespace BasC

/-- One more than the largest `size_t`. -/
def sizeMod : ℕ := 0x10000000000000000

/-- A `size_t` converted to `ssize_t`. -/
def toSsize (n : ℕ) : ℤ := if n < 0x8000000000000000 then n else n - sizeMod

theorem toSsize_of_lt {n : ℕ} (hn : n < 0x8000000000000000) : toSsize n = n := if_pos hn

/-- `STRING_LIST_DEFAULT_CAPACITY`, the same in all four files. -/
def listDefaultCapacity : ℕ := 16

/-- `STRING_LIST_GROWTH_FACTOR`, the same in all four files. -/
def listGrowthFactor : ℕ := 2

/-- A slot of the array. The string lists have nothing beside the pointer. -/
structure Item (Text Data : Type) where
  name : Option Text
  data : Data

/-- `string_list`. The array is `none` after it has been freed; `NULL` has no slots. -/
structure ItemList (Text Data : Type) where
  count : ℕ
  capacity : ℕ
  items : Option (List (Item Text Data))

/-- How the allocations of a call turn out. -/
structure Alloc (Slot : Type) where
  malloc : Bool
  realloc : Bool
  /-- `realloc` to zero bytes returns `NULL`. -/
  zeroIsNull : Bool
  strDup : Bool
  /-- What fresh memory contains. -/
  fresh : ℕ → Slot

/-- The item type of a list module and what is done with it. -/
structure ListCode where
  Text : Type
  Data : Type
  /-- `sizeof` a slot. -/
  itemSize : ℕ
  /-- New slots are cleared by a loop over the slots, and not by `memset`. -/
  clearsByLoop : Bool
  /-- The flag in a slot of zero bytes. -/
  zero : Data
  compare : Text → Text → ℤ
  two_le_itemSize : 2 ≤ itemSize
  compare_eq_zero_iff : ∀ a b, compare a b = 0 ↔ a = b

/-- `string_list.c`. -/
def stringList : ListCode where
  Text := CString
  Data := Unit
  itemSize := 8
  clearsByLoop := false
  zero := ()
  compare := strcmp
  two_le_itemSize := by decide
  compare_eq_zero_iff := strcmp_eq_zero_iff

/-- `wstring_list.c`. -/
def wstringList : ListCode where
  Text := WString
  Data := Unit
  itemSize := 8
  clearsByLoop := true
  zero := ()
  compare a b := wstringCmp (some a) (some b)
  two_le_itemSize := by decide
  compare_eq_zero_iff := wstringCmp_eq_zero_iff

/-- `fileent_list.c`, with `is_dir` beside the name. -/
def fileentList : ListCode where
  Text := CString
  Data := Bool
  itemSize := 16
  clearsByLoop := false
  zero := false
  compare := strcmp
  two_le_itemSize := by decide
  compare_eq_zero_iff := strcmp_eq_zero_iff

/-- `wfileent_list.c`. -/
def wfileentList : ListCode where
  Text := WString
  Data := Bool
  itemSize := 16
  clearsByLoop := false
  zero := false
  compare a b := wstringCmp (some a) (some b)
  two_le_itemSize := by decide
  compare_eq_zero_iff := wstringCmp_eq_zero_iff

namespace ListCode

variable (code : ListCode)

abbrev Slot := Item code.Text code.Data

abbrev Items := ItemList code.Text code.Data

/-- A slot of zero bytes. -/
def null : code.Slot := ⟨none, code.zero⟩

/-- `sizeof(char*) * n`. -/
def bytes (n : ℕ) : ℕ := code.itemSize * n % sizeMod

/-- `realloc`; `none` is `NULL`. -/
def realloc (alloc : Alloc code.Slot) (slots : List code.Slot) (bytes : ℕ) :
    Option (List code.Slot) :=
  if bytes = 0 then
    if alloc.zeroIsNull then none else some []
  else if alloc.realloc then
    some ((List.range (bytes / code.itemSize)).map fun i => slots.getD i (alloc.fresh i))
  else none

/-- The old array when `realloc` has returned `NULL`: zero bytes have freed it. -/
def kept (slots : List code.Slot) (bytes : ℕ) : Option (List code.Slot) :=
  if bytes = 0 then none else some slots

/-- Clear `n` slots: `memset(items + start, 0, sizeof(char*) * n)`, or a loop. -/
def clearNew (slots : List code.Slot) (start n : ℕ) : Option (List code.Slot) :=
  let n := if code.clearsByLoop then n else code.bytes n / code.itemSize
  if start + n ≤ slots.length then
    some (slots.take start ++ List.replicate n code.null ++ slots.drop (start + n))
  else none

/-- `list->items[index]`. -/
def load (list : code.Items) (index : ℕ) : Option code.Slot :=
  list.items.bind fun slots => slots[index]?

/-- `list->items[index] = item`. -/
def store (list : code.Items) (index : ℕ) (item : code.Slot) : Option code.Items :=
  list.items.bind fun slots =>
    if index < slots.length then some { list with items := some (slots.set index item) }
    else none

/-- The doubling loop of `ensure_capacity`. A capacity that has been doubled 64 times is
zero for good, so a loop that has not ended by then never does. -/
def growCapacity : ℕ → ℕ → ℕ → Option ℕ
  | 0, _, _ => none
  | fuel + 1, newCapacity, minCapacity =>
      if minCapacity ≤ newCapacity then some newCapacity
      else growCapacity fuel (newCapacity * listGrowthFactor % sizeMod) minCapacity

/-- The capacity that the loop starts from. -/
def startCapacity (list : code.Items) : ℕ :=
  if list.capacity = 0 then listDefaultCapacity else list.capacity

/-- `ensure_capacity`. -/
def ensureCapacity (list : code.Items) (minCapacity : ℕ) (alloc : Alloc code.Slot) :
    Option (ℤ × code.Items) :=
  if minCapacity ≤ list.capacity then some (1, list)
  else
    (growCapacity 65 (code.startCapacity list) minCapacity).bind fun newCapacity =>
      list.items.bind fun slots =>
        match code.realloc alloc slots (code.bytes newCapacity) with
        | none => some (0, { list with items := code.kept slots (code.bytes newCapacity) })
        | some newItems =>
            (code.clearNew newItems list.capacity (newCapacity - list.capacity)).map
              fun newItems => (1, { list with items := some newItems, capacity := newCapacity })

/-- `string_list_create`; a missing list is `NULL`. -/
def create (initialCapacity : ℕ) (alloc : Alloc code.Slot) : Option (Option code.Items) :=
  if alloc.malloc then
    if 0 < initialCapacity then
      (code.ensureCapacity ⟨0, 0, some []⟩ initialCapacity alloc).map fun grown =>
        if grown.1 = 0 then none else some grown.2
    else some (some ⟨0, 0, some []⟩)
  else some none

/-- `string_list_append`, and `string_list_add`, which calls it. -/
def append (list : code.Items) (name : code.Text) (data : code.Data) (alloc : Alloc code.Slot) :
    Option (ℤ × code.Items) :=
  (code.ensureCapacity list ((list.count + 1) % sizeMod) alloc).bind fun grown =>
    if grown.1 = 0 then some (0, grown.2)
    else if alloc.strDup then
      (code.store grown.2 grown.2.count ⟨some name, data⟩).map fun stored =>
        (1, { stored with count := (stored.count + 1) % sizeMod })
    else some (0, grown.2)

/-- `for (i = count; i > index; i--) items[i] = items[i - 1];`. -/
def shiftRight (index : ℕ) : ℕ → code.Items → Option code.Items
  | 0, list => some list
  | i + 1, list =>
      if index < i + 1 then
        (code.load list i).bind fun item =>
          (code.store list (i + 1) item).bind (shiftRight index i)
      else some list

/-- `string_list_insert`. -/
def insert (list : code.Items) (index : ℕ) (name : code.Text) (data : code.Data)
    (alloc : Alloc code.Slot) : Option (ℤ × code.Items) :=
  if list.count < index then some (0, list)
  else
    (code.ensureCapacity list ((list.count + 1) % sizeMod) alloc).bind fun grown =>
      if grown.1 = 0 then some (0, grown.2)
      else if alloc.strDup then
        (code.shiftRight index grown.2.count grown.2).bind fun shifted =>
          (code.store shifted index ⟨some name, data⟩).map fun stored =>
            (1, { stored with count := (stored.count + 1) % sizeMod })
      else some (0, grown.2)

/-- `for (i = index; i < count - 1; i++) items[i] = items[i + 1];`, by the number of rounds. -/
def shiftLeft : ℕ → ℕ → code.Items → Option code.Items
  | 0, _, list => some list
  | rounds + 1, i, list =>
      (code.load list (i + 1)).bind fun item =>
        (code.store list i item).bind (shiftLeft rounds (i + 1))

/-- `string_list_remove`. -/
def remove (list : code.Items) (index : ℕ) : Option (ℤ × code.Items) :=
  if list.count ≤ index then some (0, list)
  else
    (code.load list index).bind fun _ =>
      (code.shiftLeft (list.count - 1 - index) index list).bind fun shifted =>
        (code.store { shifted with count := shifted.count - 1 } (shifted.count - 1) code.null).map
          fun cleared => (1, cleared)

/-- The loop of `string_list_clear`, which ends with every slot in use a null slot. -/
def clearSlots : ℕ → ℕ → code.Items → Option code.Items
  | 0, _, list => some list
  | rounds + 1, i, list =>
      (code.load list i).bind fun _ =>
        (code.store list i code.null).bind (clearSlots rounds (i + 1))

/-- `string_list_clear`. -/
def clear (list : code.Items) : Option code.Items :=
  (code.clearSlots list.count 0 list).map fun cleared => { cleared with count := 0 }

/-- The reads of the loop that frees the strings behind a new capacity. -/
def loadAll : ℕ → ℕ → code.Items → Option Unit
  | 0, _, _ => some ()
  | rounds + 1, i, list => (code.load list i).bind fun _ => loadAll rounds (i + 1) list

/-- `string_list_resize`. -/
def resize (list : code.Items) (newCapacity : ℕ) (alloc : Alloc code.Slot) :
    Option (ℤ × code.Items) :=
  (code.loadAll (list.count - newCapacity) newCapacity list).bind fun _ =>
    let list := if newCapacity < list.count then { list with count := newCapacity } else list
    list.items.bind fun slots =>
      let newItems := code.realloc alloc slots (code.bytes newCapacity)
      if newItems.isNone ∧ 0 < newCapacity then
        some (0, { list with items := code.kept slots (code.bytes newCapacity) })
      else
        let resized : code.Items := ⟨list.count, newCapacity, some (newItems.getD [])⟩
        if resized.count < newCapacity then
          (code.clearNew (newItems.getD []) resized.count (newCapacity - resized.count)).map
            fun slots => (1, { resized with items := some slots })
        else some (1, resized)

/-- `string_list_get`; `none` inside is `NULL`. The string lists return the name of the
slot, the file lists a pointer to it. -/
def get (list : code.Items) (index : ℕ) : Option (Option code.Slot) :=
  if list.count ≤ index then some none else (code.load list index).map some

/-- The loop of `string_list_find`. -/
def findFrom (list : code.Items) (text : code.Text) : ℕ → ℕ → Option ℤ
  | 0, _ => some (-1)
  | rounds + 1, i =>
      (code.load list i).bind fun item =>
        match item.name with
        | some name =>
            if code.compare name text = 0 then some (toSsize i)
            else findFrom list text rounds (i + 1)
        | none => findFrom list text rounds (i + 1)

/-- `string_list_find`. -/
def find (list : code.Items) (text : code.Text) : Option ℤ := code.findFrom list text list.count 0

/-- `string_list_contains`. -/
def contains (list : code.Items) (text : code.Text) : Option Bool :=
  (code.find list text).map fun index => decide (0 ≤ index)

/-- `string_list_size`. -/
def size (list : code.Items) : ℕ := list.count

/-- `string_list_capacity`. -/
def capacity (list : code.Items) : ℕ := list.capacity

/-- The loop of `string_list_copy`. The allocations of the `i`-th round are `allocs i`. -/
def copyFrom (list : code.Items) (allocs : ℕ → Alloc code.Slot) :
    ℕ → ℕ → code.Items → Option (Option code.Items)
  | 0, _, copy => some (some copy)
  | rounds + 1, i, copy =>
      (code.load list i).bind fun item =>
        match item.name with
        | some name =>
            (code.append copy name item.data (allocs i)).bind fun appended =>
              if appended.1 = 0 then some none
              else copyFrom list allocs rounds (i + 1) appended.2
        | none => copyFrom list allocs rounds (i + 1) copy

/-- `string_list_copy`; a missing list is `NULL`. -/
def copy (list : code.Items) (alloc : Alloc code.Slot) (allocs : ℕ → Alloc code.Slot) :
    Option (Option code.Items) :=
  (code.create list.capacity alloc).bind fun created =>
    match created with
    | none => some none
    | some copy => code.copyFrom list allocs list.count 0 copy

end ListCode

end BasC
