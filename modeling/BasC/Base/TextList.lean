/-
# Lists of strings

What `string_list.c` and `wstring_list.c` have beyond the other lists: sorting, removing
duplicates, and joining. The two files differ in the unit of a string, in how they compare
strings and clear slots, and in the size of a unit in the joined string.
-/

import BasC.Base.ItemListRuns
import Mathlib.Data.List.Destutter

namespace BasC

/-- What the two files differ in. -/
structure TextCode where
  Unit : Type
  /-- The value by which units are compared. -/
  value : Unit → ℕ
  value_injective : Function.Injective value
  clearsByLoop : Bool
  unitSize : ℕ
  unitSize_pos : 0 < unitSize

namespace TextCode

/-- The list module of the file. -/
abbrev list (t : TextCode) : ListCode where
  Text := List t.Unit
  Data := PUnit
  itemSize := 8
  clearsByLoop := t.clearsByLoop
  zero := ()
  compare := compareUnits t.value
  two_le_itemSize := stringList.two_le_itemSize
  compare_eq_zero_iff := compareUnits_eq_zero_iff t.value_injective

end TextCode

/-- `string_list.c`. -/
def stringText : TextCode where
  Unit := CChar
  value := CChar.toNat
  value_injective := CChar.toNat_injective
  clearsByLoop := false
  unitSize := 1
  unitSize_pos := by decide

/-- `wstring_list.c`. -/
def wstringText : TextCode where
  Unit := WChar
  value := WChar.toNat
  value_injective := WChar.toNat_injective
  clearsByLoop := true
  unitSize := 2
  unitSize_pos := by decide

theorem stringText_list : stringText.list = stringList := rfl

theorem wstringText_list : wstringText.list = wstringList := rfl

/-- `qsort` with a comparison: it rearranges the slots, and leaves them sorted. -/
structure Sorter (Slot : Type) (compare : Slot → Slot → ℤ) where
  sort : List Slot → List Slot
  perm : ∀ slots, (sort slots).Perm slots
  sorted : ∀ slots, (sort slots).Pairwise fun a b => compare a b ≤ 0

namespace ListCode

variable (code : ListCode)

/-- `string_compare`: a missing string goes behind the others. -/
def compareSlots (a b : code.Slot) : ℤ :=
  match a.name, b.name with
  | none, none => 0
  | none, some _ => 1
  | some _, none => -1
  | some a, some b => code.compare a b

/-- What `qsort` does with the slots. -/
abbrev SlotSorter := Sorter code.Slot code.compareSlots

/-- `string_list_sort`. -/
def sort (list : code.Items) (sorter : code.SlotSorter) : Option code.Items :=
  if list.count = 0 then some list
  else
    list.items.bind fun slots =>
      if list.count ≤ slots.length then
        some { list with
          items := some (sorter.sort (slots.take list.count) ++ slots.drop list.count) }
      else none

/-- The test of `string_list_unique`: the first item, or one that differs from the last kept. -/
def isKept (list : code.Items) (i writeIdx : ℕ) : Option Bool :=
  if i = 0 then some true
  else
    (code.load list i).bind fun item =>
      match item.name with
      | none => some false
      | some name =>
          (code.load list (writeIdx - 1)).map fun last =>
            match last.name with
            | none => false
            | some lastName => decide (code.compare name lastName ≠ 0)

/-- The loop of `string_list_unique`: the slots whose strings it frees, `write_idx`, and the list.
Two slots may have equal strings, but not the same one. -/
def uniqueFrom : ℕ → ℕ → ℕ → code.Items → Option (List code.Slot × ℕ × code.Items)
  | 0, _, writeIdx, list => some ([], writeIdx, list)
  | rounds + 1, i, writeIdx, list =>
      (code.isKept list i writeIdx).bind fun kept =>
        if kept then
          if writeIdx = i then uniqueFrom rounds (i + 1) (writeIdx + 1) list
          else
            (code.load list writeIdx).bind fun old =>
              (code.load list i).bind fun item =>
                (code.store list writeIdx item).bind fun moved =>
                  (code.store moved i code.null).bind fun cleared =>
                    (uniqueFrom rounds (i + 1) (writeIdx + 1) cleared).map fun out =>
                      ([old].filter (fun slot => slot.name.isSome) ++ out.1, out.2)
        else
          (code.load list i).bind fun item =>
            (code.store list i code.null).bind fun cleared =>
              (uniqueFrom rounds (i + 1) writeIdx cleared).map fun out =>
                ([item].filter (fun slot => slot.name.isSome) ++ out.1, out.2)

/-- `string_list_unique`, and the slots whose strings it frees. -/
def frees (list : code.Items) (sorter : code.SlotSorter) : Option (List code.Slot × code.Items) :=
  if list.count ≤ 1 then some ([], list)
  else
    (code.sort list sorter).bind fun sorted =>
      (code.uniqueFrom sorted.count 0 0 sorted).map fun out =>
        (out.1, { out.2.2 with count := out.2.1 })

/-- `string_list_unique`, and the strings that it frees. -/
def unique (list : code.Items) (sorter : code.SlotSorter) :
    Option (List code.Text × code.Items) :=
  (code.frees list sorter).map fun out => (out.1.filterMap fun slot => slot.name, out.2)

/-- The strings that a loop over the items finds. -/
def loadNames : ℕ → ℕ → code.Items → Option (List (Option code.Text))
  | 0, _, _ => some []
  | rounds + 1, i, list =>
      (code.load list i).bind fun item =>
        (loadNames rounds (i + 1) list).map fun names => item.name :: names

/-- The strings of a list. -/
def names (list : code.Items) : Option (List (Option code.Text)) :=
  code.loadNames list.count 0 list

end ListCode

namespace TextCode

variable (t : TextCode)

/-- The units that `string_list_join` counts, with the terminating NUL. -/
def unitCount (names : List (Option (List t.Unit))) (separator : List t.Unit) : ℕ :=
  (names.map fun name => (name.getD []).length).sum + separator.length * (names.length - 1) + 1

/-- The strings behind the first, each behind a separator. -/
def joinRest (separator : List t.Unit) (names : List (Option (List t.Unit))) : List t.Unit :=
  names.flatMap fun name => (name.map fun text => separator ++ text).getD []

/-- What `string_list_join` writes in front of the NUL. -/
def joinNames (separator : List t.Unit) : List (Option (List t.Unit)) → List t.Unit
  | [] => []
  | name :: names => name.getD [] ++ t.joinRest separator names

/-- `string_list_join`; a missing string is `NULL`. A unit behind the buffer is undefined. -/
def join (list : t.list.Items) (separator : Option (List t.Unit)) (alloc : Alloc t.list.Slot) :
    Option (Option (List t.Unit)) :=
  if list.count = 0 then some (if alloc.malloc then some [] else none)
  else
    (t.list.names list).bind fun names =>
      let separator := separator.getD []
      let bytes := t.unitCount names separator % sizeMod * t.unitSize % sizeMod
      if alloc.malloc then
        if ((t.joinNames separator names).length + 1) * t.unitSize ≤ bytes then
          some (some (t.joinNames separator names))
        else none
      else some none

end TextCode

end BasC
