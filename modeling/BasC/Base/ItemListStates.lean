/-
# The states of a growable list

Whatever the allocations of its calls come to, a growable list keeps its items in front of its
array. What is behind them is another matter: a call that fails may leave pointers there that
have been freed, and a byte count that wraps makes an array that is shorter than the capacity
says. When it wraps to zero, the array itself is freed.
-/

import BasC.Base.TextListSequence
import Mathlib.Data.List.Perm.Basic
import Mathlib.Data.List.Perm.Subperm

namespace BasC

namespace ListCode

variable {code : ListCode}

/-- Lists that calls lead to, as long as the calls are allowed. Only the string lists have
`unique`. -/
inductive ListReach (allowed : code.Items → ListOp code → Prop) : code.Items → Prop
  | create {initialCapacity : ℕ} {alloc : Alloc code.Slot} {list : code.Items} :
      code.create initialCapacity alloc = some (some list) → ListReach allowed list
  | copy {source list : code.Items} {alloc : Alloc code.Slot} {allocs : ℕ → Alloc code.Slot} :
      ListReach allowed source → code.copy source alloc allocs = some (some list) →
      ListReach allowed list
  | call {list list' : code.Items} {op : ListOp code} {out : ListOut code} :
      ListReach allowed list → allowed list op → listStep list op = some (out, list') →
      ListReach allowed list'
  | sort {list list' : code.Items} {sorter : code.SlotSorter} :
      ListReach allowed list → code.sort list sorter = some list' → ListReach allowed list'
  | unique {list list' : code.Items} {sorter : code.SlotSorter} {freed : List code.Text} :
      ListReach allowed list → code.unique list sorter = some (freed, list') →
      ListReach allowed list'

/-- The item that a call adds. -/
def ListOp.added : ListOp code → Option code.Entry
  | .append name data _ => some (name, data)
  | .insert _ name data _ => some (name, data)
  | _ => none

/-- The list has these items in front of this array. -/
structure Holds (list : code.Items) (entries : List code.Entry) (slots : List code.Slot) :
    Prop where
  count_eq : list.count = entries.length
  items_eq : list.items = some slots
  front : entries.map slotOf <+: slots
  count_le : entries.length ≤ list.capacity
  length_le : slots.length ≤ list.capacity
  fits : code.itemSize * slots.length < sizeMod

/-- A new array: the old slots that fit in front, and no more slots than were asked for. -/
theorem realloc_some {alloc : Alloc code.Slot} {slots newItems : List code.Slot} {n : ℕ}
    (hrealloc : code.realloc alloc slots (code.bytes n) = some newItems) :
    newItems.length = code.bytes n / code.itemSize ∧ slots.take newItems.length <+: newItems := by
  unfold realloc at hrealloc
  split_ifs at hrealloc with hzero hnull hok
  · obtain rfl := Option.some.inj hrealloc
    rw [hzero, Nat.zero_div]
    exact ⟨rfl, List.prefix_rfl⟩
  · rw [map_getD_range] at hrealloc
    have hnew := Option.some.inj hrealloc
    have hlength := congrArg List.length hnew
    rw [List.length_append, List.length_map, List.length_drop, List.length_take,
      List.length_range] at hlength
    have hlength' : newItems.length = code.bytes n / code.itemSize := by omega
    refine ⟨hlength', ?_⟩
    rw [hlength', ← hnew]
    exact List.prefix_append _ _

theorem realloc_none {alloc : Alloc code.Slot} {slots : List code.Slot} {n : ℕ}
    (hrealloc : code.realloc alloc slots (code.bytes n) = none) :
    code.bytes n = 0 ∧ alloc.zeroIsNull = true ∨ code.bytes n ≠ 0 ∧ alloc.realloc = false := by
  unfold realloc at hrealloc
  split_ifs at hrealloc with hzero hnull hok
  · exact .inl ⟨hzero, hnull⟩
  · exact .inr ⟨hzero, by simpa using hok⟩

theorem bytes_lt (n : ℕ) : code.bytes n < sizeMod := Nat.mod_lt _ (by decide)

/-- The slots of a new array do not wrap, and there are no more than were asked for. -/
theorem length_of_bytes {newItems : List code.Slot} {n : ℕ}
    (hlength : newItems.length = code.bytes n / code.itemSize) :
    newItems.length ≤ n ∧ code.itemSize * newItems.length < sizeMod := by
  have hle : code.itemSize * newItems.length ≤ code.bytes n := by
    rw [hlength]
    exact Nat.mul_div_le _ _
  constructor
  · apply Nat.le_of_mul_le_mul_left _ code.itemSize_pos
    exact hle.trans (Nat.mod_le _ _)
  · exact Nat.lt_of_le_of_lt hle (bytes_lt n)

theorem clearNew_some {slots cleared : List code.Slot} {start n : ℕ}
    (hclear : code.clearNew slots start n = some cleared) :
    start ≤ slots.length ∧ cleared.length = slots.length ∧ slots.take start <+: cleared := by
  simp only [clearNew] at hclear
  generalize (if code.clearsByLoop then n else code.bytes n / code.itemSize) = cells at hclear
  split_ifs at hclear with hbounds
  · obtain rfl := Option.some.inj hclear
    refine ⟨by omega, ?_, ?_⟩
    · simp only [List.length_append, List.length_take, List.length_replicate, List.length_drop]
      omega
    · rw [List.append_assoc]
      exact List.prefix_append _ _

section Growing

variable {list list' : code.Items} {entries : List code.Entry} {slots : List code.Slot}
  {alloc : Alloc code.Slot} {ret : ℤ} {minCapacity : ℕ}

theorem growCapacity_some {fuel start newCapacity : ℕ}
    (hgrow : growCapacity fuel start minCapacity = some newCapacity) :
    minCapacity ≤ newCapacity := by
  induction fuel generalizing start with
  | zero => cases hgrow
  | succ fuel ih =>
      rw [growCapacity] at hgrow
      split_ifs at hgrow with henough
      · rwa [← Option.some.inj hgrow]
      · exact ih hgrow

/-- **What `ensure_capacity` comes to**: there is room, or the list is as it was, or its array
is gone. -/
theorem Holds.ensureCapacity_cases (hlist : Holds list entries slots)
    (hensure : code.ensureCapacity list minCapacity alloc = some (ret, list')) :
    (ret = 1 ∧ minCapacity ≤ list'.capacity ∧ ∃ slots', Holds list' entries slots') ∨
      (ret = 0 ∧ list' = list) ∨
      (ret = 0 ∧ list' = { list with items := none } ∧ list.capacity < minCapacity ∧
        alloc.zeroIsNull = true ∧ ∃ newCapacity,
          growCapacity 65 (code.startCapacity list) minCapacity = some newCapacity ∧
            code.bytes newCapacity = 0) := by
  obtain ⟨hcount, hitems, hfront, hle, hlength, hfits⟩ := hlist
  unfold ensureCapacity at hensure
  split_ifs at hensure with henough
  · obtain ⟨rfl, rfl⟩ := Prod.mk.inj (Option.some.inj hensure)
    exact .inl ⟨rfl, henough, slots, hcount, hitems, hfront, hle, hlength, hfits⟩
  · rw [Nat.not_le] at henough
    obtain ⟨newCapacity, hgrow, hensure⟩ := Option.bind_eq_some_iff.mp hensure
    rw [hitems, Option.bind_some] at hensure
    cases hrealloc : code.realloc alloc slots (code.bytes newCapacity) with
    | none =>
        rw [hrealloc] at hensure
        obtain ⟨rfl, rfl⟩ := Prod.mk.inj (Option.some.inj hensure)
        rcases realloc_none hrealloc with ⟨hzero, hnull⟩ | ⟨hne, -⟩
        · exact .inr (.inr ⟨rfl, by rw [kept, if_pos hzero], henough, hnull, newCapacity, hgrow,
            hzero⟩)
        · exact .inr (.inl ⟨rfl, by rw [kept, if_neg hne, ← hitems]⟩)
    | some newItems =>
        rw [hrealloc] at hensure
        obtain ⟨cleared, hclear, hout⟩ := Option.map_eq_some_iff.mp hensure
        obtain ⟨rfl, rfl⟩ := Prod.mk.inj hout
        obtain ⟨hnew, hold⟩ := realloc_some hrealloc
        obtain ⟨hstart, hsame, hkept⟩ := clearNew_some hclear
        obtain ⟨hshort, hfits'⟩ := length_of_bytes hnew
        have hcapacity := growCapacity_some hgrow
        refine .inl ⟨rfl, hcapacity, cleared, hcount, rfl, ?_, by dsimp only; omega, ?_, ?_⟩
        · refine List.IsPrefix.trans (List.prefix_take_iff.mpr ⟨?_, ?_⟩) hkept
          · refine List.IsPrefix.trans (List.prefix_take_iff.mpr ⟨hfront, ?_⟩) hold
            rw [List.length_map]
            omega
          · rwa [List.length_map]
        · rwa [hsame]
        · rwa [hsame]

theorem Holds.length_lt (hlist : Holds list entries slots) :
    entries.length ≤ slots.length ∧ code.itemSize * entries.length < sizeMod := by
  have hle := hlist.front.length_le
  rw [List.length_map] at hle
  exact ⟨hle, Nat.lt_of_le_of_lt (Nat.mul_le_mul_left _ hle) hlist.fits⟩

theorem Holds.succ_mod (hlist : Holds list entries slots) :
    (list.count + 1) % sizeMod = entries.length + 1 := by
  rw [hlist.count_eq]
  exact ListCode.succ_mod hlist.length_lt.2

/-- A full array is doubled. -/
theorem growCapacity_full {capacity : ℕ} (hpos : 0 < capacity)
    (hfits : code.itemSize * capacity < sizeMod) :
    growCapacity 65 capacity (capacity + 1) = some (capacity * 2) := by
  have hlt := ListCode.length_lt hfits
  have hmod : sizeMod = 2 * 0x8000000000000000 := rfl
  rw [growCapacity, if_neg (by omega), growCapacity, listGrowthFactor,
    Nat.mod_eq_of_lt (by omega), if_pos (by omega)]

/-- The growth of a full list asks for a number of slots whose bytes wrap to zero, and `realloc`
frees the array. -/
def GrowsToNothing (list : code.Items) (alloc : Alloc code.Slot) : Prop :=
  list.count = list.capacity ∧ code.bytes (list.capacity * 2) = 0 ∧ alloc.zeroIsNull = true

/-- **Room for one more item.** -/
theorem Holds.makeRoom_cases (hlist : Holds list entries slots)
    (hensure : code.ensureCapacity list ((list.count + 1) % sizeMod) alloc = some (ret, list')) :
    (ret = 1 ∧ ∃ slots', Holds list' entries slots' ∧ entries.length + 1 ≤ list'.capacity) ∨
      (ret = 0 ∧ list' = list) ∨
      (ret = 0 ∧ list' = { list with items := none } ∧
        (0 < list.count → GrowsToNothing list alloc)) := by
  rw [hlist.succ_mod] at hensure
  rcases hlist.ensureCapacity_cases hensure with
    ⟨hret, hroom, slots', hlist'⟩ | hsame | ⟨hret, hgone, hfull, hnull, newCapacity, hgrow, hzero⟩
  · exact .inl ⟨hret, slots', hlist', hroom⟩
  · exact .inr (.inl hsame)
  · refine .inr (.inr ⟨hret, hgone, fun hpos => ?_⟩)
    have hcount := hlist.count_eq
    have hcapacity : list.count = list.capacity := by
      have := hlist.count_le
      omega
    rw [startCapacity, if_neg (by omega), ← hcount, hcapacity, growCapacity_full (by omega)
      (hcapacity ▸ hcount ▸ hlist.length_lt.2)] at hgrow
    exact ⟨hcapacity, Option.some.inj hgrow ▸ hzero, hnull⟩

theorem Holds.makeRoom_frees (hlist : Holds list entries slots) (hpos : 0 < list.count)
    (hgrows : GrowsToNothing list alloc) :
    code.ensureCapacity list ((list.count + 1) % sizeMod) alloc =
      some (0, { list with items := none }) := by
  obtain ⟨hfull, hzero, hnull⟩ := hgrows
  have hfits : code.itemSize * list.capacity < sizeMod := by
    rw [← hfull, hlist.count_eq]
    exact hlist.length_lt.2
  rw [hlist.succ_mod, ← hlist.count_eq, hfull, ensureCapacity, if_neg (by omega), startCapacity,
    if_neg (by omega), growCapacity_full (by omega) hfits, Option.bind_some, hlist.items_eq,
    Option.bind_some]
  simp only [ListCode.realloc, hzero, hnull, if_true, kept, hfull]

end Growing

/-! ## Storing -/

section Storing

variable {list list' : code.Items} {entries : List code.Entry} {slots : List code.Slot}
  {alloc : Alloc code.Slot} {ret : ℤ} {name : code.Text} {data : code.Data} {index : ℕ}

/-- What an item is stored into: the list with a slot behind its items, and what is behind
that. -/
theorem Holds.exists_next (hlist : Holds list entries slots) :
    list = ⟨entries.length, list.capacity, some slots⟩ ∧
      (slots = entries.map slotOf ∨
        ∃ next behind, slots = entries.map slotOf ++ next :: behind) := by
  obtain ⟨hcount, hitems, ⟨behind, rfl⟩, -, -, -⟩ := hlist
  refine ⟨by rw [← hcount, ← hitems], ?_⟩
  cases behind with
  | nil => exact .inl (List.append_nil _)
  | cons next behind => exact .inr ⟨next, behind, rfl⟩

/-- The list with one more item, stored over the next slot. -/
theorem Holds.stored {next : code.Slot} {behind : List code.Slot}
    (hlist : Holds list entries (entries.map slotOf ++ next :: behind))
    (hroom : entries.length + 1 ≤ list.capacity) {entries' : List code.Entry}
    (hlength : entries'.length = entries.length + 1) :
    Holds (⟨(entries.length + 1) % sizeMod, list.capacity,
      some (entries'.map slotOf ++ behind)⟩ : code.Items) entries'
      (entries'.map slotOf ++ behind) := by
  have hslots : (entries'.map slotOf ++ behind).length =
      (entries.map slotOf ++ next :: behind).length := by
    simp only [List.length_append, List.length_map, List.length_cons, hlength]
    omega
  refine ⟨?_, rfl, List.prefix_append _ _, by rwa [hlength], ?_, ?_⟩
  · rw [hlength]
    exact ListCode.succ_mod hlist.length_lt.2
  · rw [hslots]
    exact hlist.length_le
  · rw [hslots]
    exact hlist.fits

/-- Behind the last slot nothing is stored. -/
theorem store_of_full (count capacity : ℕ) {slots : List code.Slot} (hfull : slots.length ≤ index)
    (slot : code.Slot) : code.store ⟨count, capacity, some slots⟩ index slot = none := by
  rw [store, Option.bind_some, if_neg (Nat.not_lt.mpr hfull)]

/-- A call that makes room before it stores: it stores where there is room, or it leaves the
items as they are, or the array is gone. -/
theorem Holds.withRoom_cases {storing : ℤ × code.Items → Option (ℤ × code.Items)}
    (hlist : Holds list entries slots)
    (hcall : ((code.ensureCapacity list ((list.count + 1) % sizeMod) alloc).bind fun grown =>
      if grown.1 = 0 then some (0, grown.2)
      else if alloc.strDup then storing grown
      else some (0, grown.2)) = some (ret, list')) :
    (∃ grown slots', Holds grown entries slots' ∧ entries.length + 1 ≤ grown.capacity ∧
        storing (1, grown) = some (ret, list')) ∨
      (ret = 0 ∧ ∃ slots', Holds list' entries slots') ∨
      (ret = 0 ∧ list' = { list with items := none } ∧
        (0 < list.count → GrowsToNothing list alloc)) := by
  obtain ⟨⟨grew, grown⟩, hensure, hrest⟩ := Option.bind_eq_some_iff.mp hcall
  rcases hlist.makeRoom_cases hensure with
    ⟨rfl, slots', hgrown, hroom⟩ | ⟨rfl, rfl⟩ | ⟨rfl, rfl, hgone⟩
  · rw [if_neg Int.one_ne_zero] at hrest
    split_ifs at hrest with hdup
    · exact .inl ⟨grown, slots', hgrown, hroom, hrest⟩
    · obtain ⟨rfl, rfl⟩ := Prod.mk.inj (Option.some.inj hrest)
      exact .inr (.inl ⟨rfl, slots', hgrown⟩)
  · rw [if_pos rfl] at hrest
    obtain ⟨rfl, rfl⟩ := Prod.mk.inj (Option.some.inj hrest)
    exact .inr (.inl ⟨rfl, slots, hlist⟩)
  · rw [if_pos rfl] at hrest
    obtain ⟨rfl, rfl⟩ := Prod.mk.inj (Option.some.inj hrest)
    exact .inr (.inr ⟨rfl, rfl, hgone⟩)

/-- **What `string_list_append` comes to.** -/
theorem Holds.append_cases (hlist : Holds list entries slots)
    (happend : code.append list name data alloc = some (ret, list')) :
    (ret = 1 ∧ ∃ slots', Holds list' (entries ++ [(name, data)]) slots') ∨
      (ret = 0 ∧ ∃ slots', Holds list' entries slots') ∨
      (ret = 0 ∧ list' = { list with items := none } ∧
        (0 < list.count → GrowsToNothing list alloc)) := by
  rw [append] at happend
  rcases hlist.withRoom_cases happend with ⟨grown, slots', hgrown, hroom, hrest⟩ | hkept | hgone
  · obtain ⟨hgrown', rfl | ⟨next, behind, rfl⟩⟩ := hgrown.exists_next
    · rw [hgrown.count_eq, hgrown', store_of_full _ _ (List.length_map _).le] at hrest
      cases hrest
    · have hstore := append_behind entries.length grown.capacity entries (name, data) next behind
      rw [hgrown.count_eq, hgrown'] at hrest
      obtain ⟨stored, hstored, hout⟩ := Option.map_eq_some_iff.mp hrest
      obtain rfl := Option.some.inj (hstore.symm.trans hstored)
      obtain ⟨rfl, rfl⟩ := Prod.mk.inj hout
      exact .inl ⟨rfl, _, hgrown.stored hroom (by simp)⟩
  · exact .inr (.inl hkept)
  · exact .inr (.inr hgone)

/-- Without a slot behind the items there is no way to insert. -/
theorem insert_of_full (count capacity : ℕ) {slots : List code.Slot} {n : ℕ}
    (hfull : slots.length ≤ n) (hindex : index ≤ n) (slot : code.Slot) :
    ((code.shiftRight index n ⟨count, capacity, some slots⟩).bind fun shifted =>
      code.store shifted index slot) = none := by
  cases n with
  | zero =>
      rw [Nat.le_zero.mp hindex, shiftRight, Option.bind_some, store_of_full _ _ hfull]
  | succ n =>
      rw [shiftRight]
      split_ifs with hshift
      · cases code.load ⟨count, capacity, some slots⟩ n with
        | none => rfl
        | some item => rw [Option.bind_some, store_of_full _ _ hfull]; rfl
      · obtain rfl : index = n + 1 := by omega
        rw [Option.bind_some, store_of_full _ _ hfull]

/-- **What `string_list_insert` comes to.** -/
theorem Holds.insert_cases (hlist : Holds list entries slots)
    (hinsert : code.insert list index name data alloc = some (ret, list')) :
    (ret = 1 ∧ ∃ slots', Holds list' (entries.insertIdx index (name, data)) slots') ∨
      (ret = 0 ∧ ∃ slots', Holds list' entries slots') ∨
      (ret = 0 ∧ list' = { list with items := none } ∧ index ≤ list.count ∧
        (0 < list.count → GrowsToNothing list alloc)) := by
  rw [insert] at hinsert
  by_cases hindex : list.count < index
  · rw [if_pos hindex] at hinsert
    obtain ⟨rfl, rfl⟩ := Prod.mk.inj (Option.some.inj hinsert)
    exact .inr (.inl ⟨rfl, slots, hlist⟩)
  · rw [if_neg hindex] at hinsert
    rw [Nat.not_lt] at hindex
    rcases hlist.withRoom_cases hinsert with
      ⟨grown, slots', hgrown, hroom, hrest⟩ | hkept | ⟨hret, hlost, hgone⟩
    · obtain ⟨shifted, hshift, hrest⟩ := Option.bind_eq_some_iff.mp hrest
      obtain ⟨stored, hstored, hout⟩ := Option.map_eq_some_iff.mp hrest
      obtain ⟨rfl, rfl⟩ := Prod.mk.inj hout
      have hboth : ((code.shiftRight index grown.count grown).bind fun shifted =>
          code.store shifted index (slotOf (name, data))) = some stored := by
        rw [hshift, Option.bind_some]
        exact hstored
      have hle : index ≤ entries.length := hlist.count_eq ▸ hindex
      obtain ⟨hgrown', rfl | ⟨next, behind, rfl⟩⟩ := hgrown.exists_next
      · rw [hgrown.count_eq, hgrown', insert_of_full _ _ (List.length_map _).le hle] at hboth
        cases hboth
      · obtain ⟨before, after, rfl, rfl⟩ := exists_cut hle
        rw [hgrown.count_eq, hgrown', insert_behind] at hboth
        obtain rfl := Option.some.inj hboth
        rw [insertIdx_length]
        refine .inl ⟨rfl, _, hgrown.stored hroom ?_⟩
        rw [List.length_append, List.length_append, List.length_cons, Nat.add_assoc]
    · exact .inr (.inl hkept)
    · exact .inr (.inr ⟨hret, hlost, hindex, hgone⟩)

end Storing

section Removing

variable {list list' : code.Items} {entries entries' : List code.Entry} {slots : List code.Slot}
  {ret : ℤ} {index : ℕ}

theorem Holds.exists_behind (hlist : Holds list entries slots) :
    ∃ behind, slots = entries.map slotOf ++ behind ∧
      list = ⟨entries.length, list.capacity, some (entries.map slotOf ++ behind)⟩ := by
  obtain ⟨hcount, hitems, ⟨behind, rfl⟩, -, -, -⟩ := hlist
  exact ⟨behind, rfl, by rw [← hcount, ← hitems]⟩

/-- No more items in front of an array of the same length. -/
theorem Holds.fewer (hlist : Holds list entries slots) {behind : List code.Slot}
    (hfewer : entries'.length ≤ entries.length)
    (hlength : (entries'.map slotOf ++ behind).length = slots.length) :
    Holds (⟨entries'.length, list.capacity, some (entries'.map slotOf ++ behind)⟩ : code.Items)
      entries' (entries'.map slotOf ++ behind) := by
  refine ⟨rfl, rfl, List.prefix_append _ _, hfewer.trans hlist.count_le, ?_, ?_⟩
  · rw [hlength]
    exact hlist.length_le
  · rw [hlength]
    exact hlist.fits

/-- **What `string_list_remove` comes to.** -/
theorem Holds.remove_cases (hlist : Holds list entries slots)
    (hremove : code.remove list index = some (ret, list')) :
    (ret = 1 ∧ ∃ slots', Holds list' (entries.eraseIdx index) slots') ∨
      (ret = 0 ∧ list' = list) := by
  by_cases hindex : list.count ≤ index
  · rw [remove, if_pos hindex] at hremove
    obtain ⟨rfl, rfl⟩ := Prod.mk.inj (Option.some.inj hremove)
    exact .inr ⟨rfl, rfl⟩
  · rw [hlist.count_eq] at hindex
    obtain ⟨behind, rfl, hlist'⟩ := hlist.exists_behind
    obtain ⟨before, after, rfl, rfl⟩ := exists_cut (Nat.le_of_not_le hindex)
    cases after with
    | nil => simp at hindex
    | cons entry after =>
        rw [hlist', remove_behind] at hremove
        obtain ⟨rfl, rfl⟩ := Prod.mk.inj (Option.some.inj hremove)
        have herase : (before ++ entry :: after).eraseIdx before.length = before ++ after := by
          rw [List.eraseIdx_append_of_length_le (Nat.le_refl _), Nat.sub_self]
          rfl
        rw [herase]
        refine .inl ⟨rfl, _, hlist.fewer ?_ ?_⟩
        · simp
        · simp only [List.length_append, List.length_map, List.length_cons]
          omega

/-- `string_list_clear` leaves no items. -/
theorem Holds.clear_cases (hlist : Holds list entries slots)
    (hclear : code.clear list = some list') : ∃ slots', Holds list' [] slots' := by
  obtain ⟨behind, rfl, hlist'⟩ := hlist.exists_behind
  rw [hlist', clear_behind] at hclear
  obtain rfl := Option.some.inj hclear
  have hlength : (([] : List code.Entry).map slotOf ++
      (List.replicate entries.length code.null ++ behind)).length =
      (entries.map slotOf ++ behind).length := by simp
  exact ⟨_, hlist.fewer (Nat.zero_le _) hlength⟩

variable {alloc : Alloc code.Slot} {newCapacity : ℕ}

/-- The strings that `string_list_resize` frees are there. -/
theorem Holds.loadAll (hlist : Holds list entries slots) (newCapacity : ℕ) :
    code.loadAll (list.count - newCapacity) newCapacity list = some () := by
  obtain ⟨behind, rfl, hlist'⟩ := hlist.exists_behind
  rw [hlist.count_eq, hlist']
  exact loadAll_behind _ entries behind newCapacity

/-- The items that are left in the old array. -/
theorem Holds.take (hlist : Holds list entries slots) (newCapacity : ℕ) :
    Holds { list with count := (entries.take newCapacity).length } (entries.take newCapacity)
      slots := by
  obtain ⟨hcount, hitems, hfront, hle, hlength, hfits⟩ := hlist
  refine ⟨rfl, hitems, ?_, (List.length_take_le' _ _).trans hle, hlength, hfits⟩
  rw [List.map_take]
  exact (List.take_prefix _ _).trans hfront

/-- The items that are left in a new array. -/
theorem Holds.take_new (hlist : Holds list entries slots) {newItems : List code.Slot}
    (hrealloc : code.realloc alloc slots (code.bytes newCapacity) = some newItems)
    (hroom : (entries.take newCapacity).length ≤ newItems.length) {final : List code.Slot}
    (hsame : final.length = newItems.length)
    (hkept : newItems.take (entries.take newCapacity).length <+: final) :
    Holds (⟨(entries.take newCapacity).length, newCapacity, some final⟩ : code.Items)
      (entries.take newCapacity) final := by
  obtain ⟨hnew, hold⟩ := realloc_some hrealloc
  obtain ⟨hshort, hfits⟩ := length_of_bytes hnew
  refine ⟨rfl, rfl, ?_, List.length_take_le _ _, by rwa [← hsame] at hshort, by rwa [hsame]⟩
  refine List.IsPrefix.trans (List.prefix_take_iff.mpr ⟨?_, (List.length_map _).le⟩) hkept
  refine List.IsPrefix.trans (List.prefix_take_iff.mpr ⟨?_, ?_⟩) hold
  · exact (hlist.take newCapacity).front
  · rwa [List.length_map]

/-- **What `string_list_resize` comes to**: the items that the new capacity has room for are
left, also when it fails and keeps the old array. -/
theorem Holds.resize_cases (hlist : Holds list entries slots)
    (hresize : code.resize list newCapacity alloc = some (ret, list')) :
    (ret = 1 ∧ ∃ slots', Holds list' (entries.take newCapacity) slots') ∨
      (ret = 0 ∧ alloc.realloc = false ∧ 0 < newCapacity ∧
        list' = { list with count := (entries.take newCapacity).length }) ∨
      (ret = 0 ∧ (code.bytes newCapacity = 0 ∧ alloc.zeroIsNull = true ∧ 0 < newCapacity) ∧
        list'.count = (entries.take newCapacity).length ∧ list'.items = none) := by
  rw [resize, hlist.loadAll, Option.bind_some] at hresize
  simp only [cutCount_eq hlist.count_eq] at hresize
  rw [hlist.items_eq, Option.bind_some] at hresize
  cases hrealloc : code.realloc alloc slots (code.bytes newCapacity) with
  | none =>
      rw [hrealloc] at hresize
      by_cases hpos : 0 < newCapacity
      · rw [if_pos ⟨rfl, hpos⟩] at hresize
        obtain ⟨rfl, rfl⟩ := Prod.mk.inj (Option.some.inj hresize)
        rcases realloc_none hrealloc with ⟨hzero, hnull⟩ | ⟨hne, hfail⟩
        · exact .inr (.inr ⟨rfl, ⟨hzero, hnull, hpos⟩, rfl, by rw [kept, if_pos hzero]⟩)
        · exact .inr (.inl ⟨rfl, hfail, hpos, by rw [kept, if_neg hne, ← hlist.items_eq]⟩)
      · obtain rfl : newCapacity = 0 := by omega
        rw [if_neg fun h => hpos h.2] at hresize
        obtain ⟨rfl, rfl⟩ := Prod.mk.inj (Option.some.inj hresize)
        exact .inl ⟨rfl, [], rfl, rfl, List.prefix_rfl, Nat.le_refl 0, Nat.le_refl 0,
          Nat.mod_lt 0 (by decide)⟩
  | some newItems =>
      rw [hrealloc, if_neg fun h => Bool.false_ne_true h.1] at hresize
      refine .inl ?_
      split_ifs at hresize with hshort
      · obtain ⟨cleared, hclear, hout⟩ := Option.map_eq_some_iff.mp hresize
        obtain ⟨rfl, rfl⟩ := Prod.mk.inj hout
        obtain ⟨hstart, hsame, hkept⟩ := clearNew_some hclear
        exact ⟨rfl, cleared, hlist.take_new hrealloc hstart hsame hkept⟩
      · obtain ⟨rfl, rfl⟩ := Prod.mk.inj (Option.some.inj hresize)
        refine ⟨rfl, newItems, hlist.take_new hrealloc ?_ rfl (List.take_prefix _ _)⟩
        have hfull : newCapacity ≤ entries.length := by
          have hle := List.length_take_le' newCapacity entries
          omega
        have hfits := Nat.lt_of_le_of_lt (Nat.mul_le_mul_left _ hfull) hlist.length_lt.2
        rw [(realloc_some hrealloc).1, (bytes_div hfits).2]
        exact List.length_take_le _ _

end Removing

section Sorting

variable {list list' : code.Items} {entries : List code.Entry} {slots : List code.Slot}

/-- `string_list_sort` rearranges the items. -/
theorem Holds.sort_cases (hlist : Holds list entries slots) {sorter : code.SlotSorter}
    (hsort : code.sort list sorter = some list') :
    ∃ sorted slots', Holds list' sorted slots' ∧ sorted.Perm entries := by
  obtain ⟨behind, rfl, hlist'⟩ := hlist.exists_behind
  obtain ⟨sorted, hperm, -, hsorted⟩ := sort_behind list.capacity entries behind sorter
  rw [hlist', hsorted] at hsort
  obtain rfl := Option.some.inj hsort
  refine ⟨sorted, _, hlist.fewer hperm.length_eq.le ?_, hperm⟩
  rw [List.length_append, List.length_append, List.length_map, List.length_map, hperm.length_eq]

/-- `string_list_unique` leaves some of the items, in another order. -/
theorem Holds.unique_cases (hlist : Holds list entries slots) {sorter : code.SlotSorter}
    {freed : List code.Text} (hunique : code.unique list sorter = some (freed, list')) :
    ∃ entries' slots', Holds list' entries' slots' ∧ entries'.Subperm entries := by
  obtain ⟨behind, rfl, hlist'⟩ := hlist.exists_behind
  obtain ⟨freed, sorted, gap, hperm, -, -, hgap, hfrees⟩ := frees_behind list.capacity entries
    behind sorter
  rw [hlist', unique_of_frees hfrees] at hunique
  obtain ⟨-, rfl⟩ := Prod.mk.inj (Option.some.inj hunique)
  refine ⟨_, _, hlist.fewer (by omega) ?_,
    (List.destutter_sublist _ _).subperm.trans hperm.subperm⟩
  simp only [List.length_append, List.length_map, List.length_replicate]
  omega

end Sorting

theorem holds_empty : Holds (⟨0, 0, some []⟩ : code.Items) [] [] :=
  ⟨rfl, rfl, List.prefix_rfl, Nat.le_refl 0, Nat.le_refl 0, Nat.mod_lt 0 (by decide)⟩

/-- `string_list_create` makes a list without items. -/
theorem create_cases {initialCapacity : ℕ} {alloc : Alloc code.Slot} {list : code.Items}
    (hcreate : code.create initialCapacity alloc = some (some list)) :
    ∃ slots, Holds list [] slots := by
  unfold create at hcreate
  split_ifs at hcreate with hmalloc hpos
  · obtain ⟨⟨grew, grown⟩, hensure, hout⟩ := Option.map_eq_some_iff.mp hcreate
    rcases holds_empty.ensureCapacity_cases hensure with
      ⟨rfl, -, hgrown⟩ | ⟨rfl, -⟩ | ⟨rfl, -⟩
    · rw [if_neg Int.one_ne_zero] at hout
      rwa [← Option.some.inj hout]
    · rw [if_pos rfl] at hout
      cases hout
    · rw [if_pos rfl] at hout
      cases hout
  · obtain rfl := Option.some.inj (Option.some.inj hcreate)
    exact ⟨[], holds_empty⟩
  · cases Option.some.inj hcreate

theorem Holds.load {list : code.Items} {before after : List code.Entry} {entry : code.Entry}
    {slots : List code.Slot} (hlist : Holds list (before ++ entry :: after) slots) :
    code.load list before.length = some (slotOf entry) := by
  obtain ⟨behind, rfl, hlist'⟩ := hlist.exists_behind
  rw [hlist']
  exact load_behind _ _ before after entry behind

/-- The loop of `string_list_copy` appends the items that are left. -/
theorem Holds.copyFrom_cases {list copy copy' : code.Items} {before after : List code.Entry}
    {slots slots' : List code.Slot} {allocs : ℕ → Alloc code.Slot}
    (hlist : Holds list (before ++ after) slots) (hcopy : Holds copy before slots')
    (hcopied : code.copyFrom list allocs after.length before.length copy = some (some copy')) :
    ∃ slots'', Holds copy' (before ++ after) slots'' := by
  induction after generalizing before copy slots' with
  | nil =>
      obtain rfl := Option.some.inj (Option.some.inj hcopied)
      exact ⟨slots', by rwa [List.append_nil]⟩
  | cons entry after ih =>
      rw [List.length_cons, copyFrom, hlist.load, Option.bind_some] at hcopied
      obtain ⟨⟨ret, appended⟩, happend, hrest⟩ := Option.bind_eq_some_iff.mp hcopied
      rcases hcopy.append_cases happend with ⟨rfl, slots'', happended⟩ | ⟨rfl, -⟩ | ⟨rfl, -⟩
      · have hsplit : before ++ entry :: after = (before ++ [entry]) ++ after := by simp
        rw [hsplit] at hlist ⊢
        rw [if_neg Int.one_ne_zero] at hrest
        refine ih hlist happended ?_
        rwa [List.length_append, List.length_singleton]
      · cases hrest
      · cases hrest

/-- `string_list_copy` makes a list with the same items. -/
theorem Holds.copy_cases {list copy : code.Items} {entries : List code.Entry}
    {slots : List code.Slot} {alloc : Alloc code.Slot} {allocs : ℕ → Alloc code.Slot}
    (hlist : Holds list entries slots) (hcopy : code.copy list alloc allocs = some (some copy)) :
    ∃ slots', Holds copy entries slots' := by
  obtain ⟨created, hcreate, hcopied⟩ := Option.bind_eq_some_iff.mp hcopy
  cases created with
  | none => cases hcopied
  | some new =>
      obtain ⟨slots', hnew⟩ := create_cases hcreate
      rw [hlist.count_eq] at hcopied
      have hall : Holds list ([] ++ entries) slots := hlist
      exact hall.copyFrom_cases hnew hcopied

/-! ## Lists without an array -/

section Gone

variable {list list' : code.Items}

theorem load_gone (hgone : list.items = none) (index : ℕ) : code.load list index = none := by
  rw [load, hgone, Option.bind_none]

theorem store_gone (hgone : list.items = none) (index : ℕ) (slot : code.Slot) :
    code.store list index slot = none := by
  rw [store, hgone, Option.bind_none]

theorem ensureCapacity_gone (hgone : list.items = none) {minCapacity : ℕ}
    {alloc : Alloc code.Slot} {out : ℤ × code.Items}
    (hensure : code.ensureCapacity list minCapacity alloc = some out) : out = (1, list) := by
  unfold ensureCapacity at hensure
  split_ifs at hensure with henough
  · exact (Option.some.inj hensure).symm
  · obtain ⟨newCapacity, -, hnone⟩ := Option.bind_eq_some_iff.mp hensure
    rw [hgone, Option.bind_none] at hnone
    cases hnone

theorem shiftRight_gone (hgone : list.items = none) {index n : ℕ} {shifted : code.Items}
    (hshift : code.shiftRight index n list = some shifted) : shifted = list := by
  cases n with
  | zero => exact (Option.some.inj hshift).symm
  | succ n =>
      rw [shiftRight, load_gone hgone, Option.bind_none] at hshift
      split_ifs at hshift
      exact (Option.some.inj hshift).symm

theorem append_gone (hgone : list.items = none) {name : code.Text} {data : code.Data}
    {alloc : Alloc code.Slot} {ret : ℤ}
    (happend : code.append list name data alloc = some (ret, list')) : list' = list := by
  obtain ⟨grown, hensure, hrest⟩ := Option.bind_eq_some_iff.mp happend
  obtain rfl := ensureCapacity_gone hgone hensure
  rw [if_neg Int.one_ne_zero, store_gone hgone, Option.map_none] at hrest
  split_ifs at hrest with hdup
  exact (Prod.mk.inj (Option.some.inj hrest)).2.symm

theorem insert_gone (hgone : list.items = none) {index : ℕ} {name : code.Text} {data : code.Data}
    {alloc : Alloc code.Slot} {ret : ℤ}
    (hinsert : code.insert list index name data alloc = some (ret, list')) : list' = list := by
  rw [insert] at hinsert
  by_cases hindex : list.count < index
  · rw [if_pos hindex] at hinsert
    exact (Prod.mk.inj (Option.some.inj hinsert)).2.symm
  · rw [if_neg hindex] at hinsert
    obtain ⟨grown, hensure, hrest⟩ := Option.bind_eq_some_iff.mp hinsert
    obtain rfl := ensureCapacity_gone hgone hensure
    rw [if_neg Int.one_ne_zero] at hrest
    split_ifs at hrest with hdup
    · obtain ⟨shifted, hshift, hnone⟩ := Option.bind_eq_some_iff.mp hrest
      rw [shiftRight_gone hgone hshift, store_gone hgone] at hnone
      cases hnone
    · exact (Prod.mk.inj (Option.some.inj hrest)).2.symm

theorem remove_gone (hgone : list.items = none) {index : ℕ} {ret : ℤ}
    (hremove : code.remove list index = some (ret, list')) : list' = list := by
  rw [remove, load_gone hgone, Option.bind_none] at hremove
  split_ifs at hremove
  exact (Prod.mk.inj (Option.some.inj hremove)).2.symm

theorem clear_gone (hgone : list.items = none) (hclear : code.clear list = some list') :
    list'.items = none := by
  obtain ⟨nulled, hslots, rfl⟩ := Option.map_eq_some_iff.mp hclear
  cases hcount : list.count with
  | zero =>
      rw [hcount] at hslots
      rwa [← Option.some.inj hslots]
  | succ n =>
      rw [hcount, clearSlots, load_gone hgone] at hslots
      cases hslots

/-- A resize reads the array. -/
theorem resize_gone (hgone : list.items = none) {newCapacity : ℕ} {alloc : Alloc code.Slot}
    {out : ℤ × code.Items} : code.resize list newCapacity alloc ≠ some out := by
  intro hresize
  obtain ⟨-, -, hrest⟩ := Option.bind_eq_some_iff.mp hresize
  obtain ⟨slots, hslots, -⟩ := Option.bind_eq_some_iff.mp hrest
  split_ifs at hslots
  · rw [hgone] at hslots
    cases hslots
  · rw [hgone] at hslots
    cases hslots

/-- A call on a list whose array has been freed is undefined, or it does not touch the array. -/
theorem listStep_gone (hgone : list.items = none) {op : ListOp code} {out : ListOut code}
    (hstep : listStep list op = some (out, list')) :
    list'.items = none ∧ (out = .ret 0 → list' = list) := by
  cases op with
  | append name data alloc =>
      obtain ⟨⟨ret, appended⟩, happend, hout⟩ := Option.map_eq_some_iff.mp hstep
      obtain ⟨-, rfl⟩ := Prod.mk.inj hout
      obtain rfl := append_gone hgone happend
      exact ⟨hgone, fun _ => rfl⟩
  | insert index name data alloc =>
      obtain ⟨⟨ret, inserted⟩, hinsert, hout⟩ := Option.map_eq_some_iff.mp hstep
      obtain ⟨-, rfl⟩ := Prod.mk.inj hout
      obtain rfl := insert_gone hgone hinsert
      exact ⟨hgone, fun _ => rfl⟩
  | remove index =>
      obtain ⟨⟨ret, removed⟩, hremove, hout⟩ := Option.map_eq_some_iff.mp hstep
      obtain ⟨-, rfl⟩ := Prod.mk.inj hout
      obtain rfl := remove_gone hgone hremove
      exact ⟨hgone, fun _ => rfl⟩
  | clear =>
      obtain ⟨cleared, hclear, hout⟩ := Option.map_eq_some_iff.mp hstep
      obtain ⟨rfl, rfl⟩ := Prod.mk.inj hout
      exact ⟨clear_gone hgone hclear, fun hout => by cases hout⟩
  | resize newCapacity alloc =>
      obtain ⟨resized, hresize, -⟩ := Option.map_eq_some_iff.mp hstep
      exact absurd hresize (resize_gone hgone)
  | get index =>
      obtain ⟨slot, -, hout⟩ := Option.map_eq_some_iff.mp hstep
      obtain ⟨rfl, rfl⟩ := Prod.mk.inj hout
      exact ⟨hgone, fun hout => by cases hout⟩
  | size =>
      obtain ⟨rfl, rfl⟩ := Prod.mk.inj (Option.some.inj hstep)
      exact ⟨hgone, fun hout => by cases hout⟩
  | find text =>
      obtain ⟨index, -, hout⟩ := Option.map_eq_some_iff.mp hstep
      obtain ⟨rfl, rfl⟩ := Prod.mk.inj hout
      exact ⟨hgone, fun hout => by cases hout⟩

end Gone

section Reach

variable {allowed : code.Items → ListOp code → Prop} {list list' : code.Items}
  {entries : List code.Entry} {slots : List code.Slot} {op : ListOp code} {out : ListOut code}

/-- **What a call comes to**: the array is gone, or the items are some of those before the call
and the one it adds. -/
theorem Holds.listStep_cases (hlist : Holds list entries slots)
    (hstep : listStep list op = some (out, list')) :
    list'.items = none ∨ ∃ entries' slots', Holds list' entries' slots' ∧
      (entries'.Subperm entries ∨
        ∃ entry, op.added = some entry ∧ entries'.Subperm (entry :: entries)) := by
  cases op with
  | append name data alloc =>
      obtain ⟨⟨ret, appended⟩, happend, hout⟩ := Option.map_eq_some_iff.mp hstep
      obtain ⟨-, rfl⟩ := Prod.mk.inj hout
      rcases hlist.append_cases happend with ⟨-, slots', hlist'⟩ | ⟨-, slots', hlist'⟩ | ⟨-, rfl, -⟩
      · exact .inr ⟨_, slots', hlist', .inr ⟨_, rfl, List.perm_append_singleton _ _ |>.subperm⟩⟩
      · exact .inr ⟨entries, slots', hlist', .inl (List.Subperm.refl _)⟩
      · exact .inl rfl
  | insert index name data alloc =>
      obtain ⟨⟨ret, inserted⟩, hinsert, hout⟩ := Option.map_eq_some_iff.mp hstep
      obtain ⟨-, rfl⟩ := Prod.mk.inj hout
      rcases hlist.insert_cases hinsert with ⟨-, slots', hlist'⟩ | ⟨-, slots', hlist'⟩ | ⟨-, rfl, -⟩
      · refine .inr ⟨_, slots', hlist', .inr ⟨_, rfl, ?_⟩⟩
        by_cases hindex : index ≤ entries.length
        · exact (List.perm_insertIdx _ _ hindex).subperm
        · rw [List.insertIdx_of_length_lt (by omega)]
          exact (List.sublist_cons_self _ _).subperm
      · exact .inr ⟨entries, slots', hlist', .inl (List.Subperm.refl _)⟩
      · exact .inl rfl
  | remove index =>
      obtain ⟨⟨ret, removed⟩, hremove, hout⟩ := Option.map_eq_some_iff.mp hstep
      obtain ⟨-, rfl⟩ := Prod.mk.inj hout
      rcases hlist.remove_cases hremove with ⟨-, slots', hlist'⟩ | ⟨-, rfl⟩
      · exact .inr ⟨_, slots', hlist', .inl (List.eraseIdx_sublist _ _).subperm⟩
      · exact .inr ⟨entries, slots, hlist, .inl (List.Subperm.refl _)⟩
  | clear =>
      obtain ⟨cleared, hclear, hout⟩ := Option.map_eq_some_iff.mp hstep
      obtain ⟨-, rfl⟩ := Prod.mk.inj hout
      obtain ⟨slots', hlist'⟩ := hlist.clear_cases hclear
      exact .inr ⟨[], slots', hlist', .inl (List.nil_subperm)⟩
  | resize newCapacity alloc =>
      obtain ⟨⟨ret, resized⟩, hresize, hout⟩ := Option.map_eq_some_iff.mp hstep
      obtain ⟨-, rfl⟩ := Prod.mk.inj hout
      have hsub : (entries.take newCapacity).Subperm entries := (List.take_sublist _ _).subperm
      rcases hlist.resize_cases hresize with ⟨-, slots', hlist'⟩ | ⟨-, -, -, rfl⟩ | ⟨-, -, -, hgone⟩
      · exact .inr ⟨_, slots', hlist', .inl hsub⟩
      · exact .inr ⟨_, slots, hlist.take newCapacity, .inl hsub⟩
      · exact .inl hgone
  | get index =>
      obtain ⟨slot, -, hout⟩ := Option.map_eq_some_iff.mp hstep
      obtain ⟨-, rfl⟩ := Prod.mk.inj hout
      exact .inr ⟨entries, slots, hlist, .inl (List.Subperm.refl _)⟩
  | size =>
      obtain ⟨-, rfl⟩ := Prod.mk.inj (Option.some.inj hstep)
      exact .inr ⟨entries, slots, hlist, .inl (List.Subperm.refl _)⟩
  | find text =>
      obtain ⟨index, -, hout⟩ := Option.map_eq_some_iff.mp hstep
      obtain ⟨-, rfl⟩ := Prod.mk.inj hout
      exact .inr ⟨entries, slots, hlist, .inl (List.Subperm.refl _)⟩

theorem copy_gone {source copy : code.Items} (hgone : source.items = none)
    {alloc : Alloc code.Slot} {allocs : ℕ → Alloc code.Slot}
    (hcopy : code.copy source alloc allocs = some (some copy)) : ∃ slots, Holds copy [] slots := by
  obtain ⟨created, hcreate, hcopied⟩ := Option.bind_eq_some_iff.mp hcopy
  cases created with
  | none => cases hcopied
  | some new =>
      dsimp only at hcopied
      cases hcount : source.count with
      | zero =>
          rw [hcount] at hcopied
          obtain rfl := Option.some.inj (Option.some.inj hcopied)
          exact create_cases hcreate
      | succ n =>
          rw [hcount, copyFrom, load_gone hgone] at hcopied
          cases hcopied

theorem sort_gone (hgone : list.items = none) {sorter : code.SlotSorter}
    (hsort : code.sort list sorter = some list') : list' = list := by
  rw [sort, hgone, Option.bind_none] at hsort
  split_ifs at hsort
  exact (Option.some.inj hsort).symm

theorem frees_eq_of_gone (hgone : list.items = none) {sorter : code.SlotSorter}
    {out : List code.Slot × code.Items} (hfrees : code.frees list sorter = some out) :
    out = ([], list) := by
  rw [frees] at hfrees
  split_ifs at hfrees with hshort
  · exact (Option.some.inj hfrees).symm
  · obtain ⟨sorted, hsort, -⟩ := Option.bind_eq_some_iff.mp hfrees
    rw [sort, hgone, Option.bind_none, if_neg (by omega)] at hsort
    cases hsort

theorem unique_gone (hgone : list.items = none) {sorter : code.SlotSorter}
    {freed : List code.Text} (hunique : code.unique list sorter = some (freed, list')) :
    list' = list := by
  obtain ⟨out, hfrees, hout⟩ := Option.map_eq_some_iff.mp hunique
  obtain rfl := frees_eq_of_gone hgone hfrees
  exact (Prod.mk.inj hout).2.symm

/-- **Every list that calls lead to has its items in front of its array, or no array.** What
holds of no items, of fewer of them in any order, and of one more that a call may add, holds of
the items of every list. -/
theorem ListReach.holds {P : List code.Entry → Prop} (hnil : P [])
    (hfewer : ∀ entries entries', entries'.Subperm entries → P entries → P entries')
    (hadd : ∀ list entries slots op entry, Holds list entries slots → P entries →
      allowed list op → op.added = some entry → P (entry :: entries))
    (hreach : ListReach allowed list) :
    list.items = none ∨ ∃ entries slots, Holds list entries slots ∧ P entries := by
  induction hreach with
  | create hcreate =>
      obtain ⟨slots, hlist⟩ := create_cases hcreate
      exact .inr ⟨[], slots, hlist, hnil⟩
  | copy _ hcopy ih =>
      rcases ih with hgone | ⟨entries, slots, hlist, hP⟩
      · obtain ⟨slots', hlist'⟩ := copy_gone hgone hcopy
        exact .inr ⟨[], slots', hlist', hnil⟩
      · obtain ⟨slots', hlist'⟩ := hlist.copy_cases hcopy
        exact .inr ⟨entries, slots', hlist', hP⟩
  | call _ hallowed hstep ih =>
      rcases ih with hgone | ⟨entries, slots, hlist, hP⟩
      · exact .inl (listStep_gone hgone hstep).1
      · rcases hlist.listStep_cases hstep with
          hgone | ⟨entries', slots', hlist', hsub | ⟨entry, hadded, hsub⟩⟩
        · exact .inl hgone
        · exact .inr ⟨entries', slots', hlist', hfewer _ _ hsub hP⟩
        · have hmore := hadd _ _ _ _ _ hlist hP hallowed hadded
          exact .inr ⟨entries', slots', hlist', hfewer _ _ hsub hmore⟩
  | sort _ hsort ih =>
      rcases ih with hgone | ⟨entries, slots, hlist, hP⟩
      · exact .inl (sort_gone hgone hsort ▸ hgone)
      · obtain ⟨sorted, slots', hlist', hperm⟩ := hlist.sort_cases hsort
        exact .inr ⟨sorted, slots', hlist', hfewer _ _ hperm.subperm hP⟩
  | unique _ hunique ih =>
      rcases ih with hgone | ⟨entries, slots, hlist, hP⟩
      · exact .inl (unique_gone hgone hunique ▸ hgone)
      · obtain ⟨entries', slots', hlist', hsub⟩ := hlist.unique_cases hunique
        exact .inr ⟨entries', slots', hlist', hfewer _ _ hsub hP⟩

end Reach

end ListCode

end BasC
