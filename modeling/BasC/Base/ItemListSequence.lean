/-
# Growable lists as sequences

A growable list stands for the sequence of its items: the slots in use, in order, and
behind them null slots only. Each operation keeps this and does to the sequence what its
name says, as long as allocations succeed and no byte count wraps.
-/

import BasC.Base.ItemList
import Mathlib.Tactic.Ring

namespace BasC

namespace ListCode

variable {code : ListCode}

/-- What an item of the sequence is: its name and its flag. -/
abbrev Entry (code : ListCode) := code.Text × code.Data

/-- The slot of an item. -/
def slotOf (entry : code.Entry) : code.Slot := ⟨some entry.1, entry.2⟩

/-- The slots of a sequence with free slots behind it. -/
def slotsOf (entries : List code.Entry) (free : ℕ) : List code.Slot :=
  entries.map slotOf ++ List.replicate free code.null

/-- The list whose array is that. -/
def listOf (entries : List code.Entry) (free : ℕ) : code.Items :=
  ⟨entries.length, entries.length + free, some (slotsOf entries free)⟩

@[simp] theorem listOf_count (entries : List code.Entry) (free : ℕ) :
    (listOf entries free).count = entries.length := rfl

@[simp] theorem listOf_capacity (entries : List code.Entry) (free : ℕ) :
    (listOf entries free).capacity = entries.length + free := rfl

@[simp] theorem listOf_items (entries : List code.Entry) (free : ℕ) :
    (listOf entries free).items = some (slotsOf entries free) := rfl

/-- The list stands for the sequence. -/
def Represents (list : code.Items) (entries : List code.Entry) : Prop :=
  ∃ free, list = listOf entries free ∧ code.itemSize * (entries.length + free) < sizeMod

theorem itemSize_pos (code : ListCode) : 0 < code.itemSize :=
  Nat.lt_of_lt_of_le (by decide) code.two_le_itemSize

theorem bytes_div {n : ℕ} (hfits : code.itemSize * n < sizeMod) :
    code.bytes n = code.itemSize * n ∧ code.bytes n / code.itemSize = n := by
  have hbytes : code.bytes n = code.itemSize * n := Nat.mod_eq_of_lt hfits
  exact ⟨hbytes, by rw [hbytes, Nat.mul_div_cancel_left n code.itemSize_pos]⟩

/-- A longer or shorter array: the old slots that fit, and fresh ones behind them. -/
theorem map_getD_range {α : Type} (slots : List α) (fresh : ℕ → α) (n : ℕ) :
    ((List.range n).map fun i => slots.getD i (fresh i)) =
      slots.take n ++ ((List.range n).drop slots.length).map fresh := by
  apply List.ext_getElem
  · rw [List.length_append, List.length_map, List.length_map, List.length_drop, List.length_take,
      List.length_range]
    omega
  · intro i hi _
    rw [List.length_map, List.length_range] at hi
    by_cases hslot : i < slots.length
    · rw [List.getElem_append_left (by rw [List.length_take]; omega)]
      simp [hslot]
    · have htake : (slots.take n).length = slots.length := by rw [List.length_take]; omega
      have hindex : slots.length + (i - slots.length) = i := by omega
      rw [List.getElem_append_right (by omega)]
      simp [htake, hslot, hindex]

/-- A successful `realloc` keeps the slots that fit, with anything behind them. -/
theorem realloc_eq {alloc : Alloc code.Slot} (hrealloc : alloc.realloc = true)
    (slots : List code.Slot) {n : ℕ} (hfits : code.itemSize * n < sizeMod) (hpos : 0 < n) :
    ∃ junk, code.realloc alloc slots (code.bytes n) = some (slots.take n ++ junk) ∧
      junk.length = n - slots.length := by
  obtain ⟨hbytes, hdiv⟩ := bytes_div hfits
  have hne : code.bytes n ≠ 0 := by
    rw [hbytes]
    exact Nat.mul_ne_zero (Nat.ne_of_gt code.itemSize_pos) (Nat.ne_of_gt hpos)
  rw [realloc, if_neg hne, if_pos hrealloc, hdiv, map_getD_range]
  exact ⟨_, rfl, by simp⟩

/-- Clearing what is behind the first slots. -/
theorem clearNew_eq (slots junk : List code.Slot) {n : ℕ} (hlength : junk.length = n)
    (hfits : code.itemSize * n < sizeMod) :
    code.clearNew (slots ++ junk) slots.length n =
      some (slots ++ List.replicate n code.null) := by
  have hcount : (if code.clearsByLoop then n else code.bytes n / code.itemSize) = n := by
    split
    · rfl
    · exact (bytes_div hfits).2
  simp only [clearNew, hcount]
  rw [if_pos (by simp [hlength]), List.take_left, List.drop_eq_nil_of_le (by simp [hlength]),
    List.append_nil]

theorem load_eq (count capacity : ℕ) (before after : List code.Slot) (slot : code.Slot) :
    code.load ⟨count, capacity, some (before ++ slot :: after)⟩ before.length = some slot := by
  simp [load]

theorem store_eq (count capacity : ℕ) (before after : List code.Slot) (slot slot' : code.Slot) :
    code.store ⟨count, capacity, some (before ++ slot :: after)⟩ before.length slot' =
      some ⟨count, capacity, some (before ++ slot' :: after)⟩ := by
  simp [store]

/-- The slot of an item, with anything behind the items. -/
theorem load_behind (count capacity : ℕ) (before after : List code.Entry) (entry : code.Entry)
    (behind : List code.Slot) :
    code.load ⟨count, capacity, some ((before ++ entry :: after).map slotOf ++ behind)⟩
      before.length = some (slotOf entry) := by
  have hload := load_eq count capacity (before.map slotOf) (after.map slotOf ++ behind)
    (slotOf entry)
  rw [List.map_append, List.map_cons, List.append_assoc, List.cons_append]
  rwa [List.length_map] at hload

theorem load_slot (before after : List code.Entry) (entry : code.Entry) (free : ℕ) :
    code.load (listOf (before ++ entry :: after) free) before.length = some (slotOf entry) :=
  load_behind _ _ before after entry _

theorem slotsOf_length (entries : List code.Entry) (free : ℕ) :
    (slotsOf entries free).length = entries.length + free := by
  simp [slotsOf]

theorem slotsOf_append_null (entries : List code.Entry) (free more : ℕ) :
    slotsOf entries free ++ List.replicate more code.null = slotsOf entries (free + more) := by
  rw [slotsOf, slotsOf, List.append_assoc, List.replicate_append_replicate]

/-- Doubling from `start` reaches `minCapacity` before the byte count wraps. -/
def Reaches (code : ListCode) (start minCapacity : ℕ) : Prop :=
  ∃ doublings, minCapacity ≤ start * listGrowthFactor ^ doublings ∧
    code.itemSize * (start * listGrowthFactor ^ doublings) < sizeMod

/-- The capacity for `minCapacity` slots is there, or can be asked for without a wrap. -/
def MayGrow (list : code.Items) (minCapacity : ℕ) : Prop :=
  list.capacity < minCapacity → code.Reaches (code.startCapacity list) minCapacity

/-- The doubling loop stops at the first capacity that is enough. -/
theorem growCapacity_eq {fuel start minCapacity doublings : ℕ} (hfuel : doublings < fuel)
    (hreaches : minCapacity ≤ start * 2 ^ doublings) (hsize : start * 2 ^ doublings < sizeMod) :
    ∃ newCapacity, growCapacity fuel start minCapacity = some newCapacity ∧
      minCapacity ≤ newCapacity ∧ newCapacity ≤ start * 2 ^ doublings := by
  induction fuel generalizing start doublings with
  | zero => omega
  | succ fuel ih =>
      rw [growCapacity]
      by_cases henough : minCapacity ≤ start
      · rw [if_pos henough]
        exact ⟨start, rfl, henough, Nat.le_mul_of_pos_right start (Nat.two_pow_pos _)⟩
      · cases doublings with
        | zero => omega
        | succ doublings =>
            have hdouble : start * 2 ^ (doublings + 1) = start * 2 * 2 ^ doublings := by
              rw [Nat.pow_succ']
              ring
            have hle : start * 2 ≤ start * 2 * 2 ^ doublings :=
              Nat.le_mul_of_pos_right _ (Nat.two_pow_pos _)
            rw [hdouble] at hreaches hsize ⊢
            rw [if_neg henough, listGrowthFactor, Nat.mod_eq_of_lt (by omega)]
            exact ih (by omega) hreaches hsize

/-- A loop that may reach its bound before a wrap ends there. -/
theorem growCapacity_of_reaches {start minCapacity : ℕ} (hstart : 0 < start)
    (hreaches : code.Reaches start minCapacity) :
    ∃ newCapacity, growCapacity 65 start minCapacity = some newCapacity ∧
      minCapacity ≤ newCapacity ∧ code.itemSize * newCapacity < sizeMod := by
  obtain ⟨doublings, hreach, hbytes⟩ := hreaches
  have hsize : start * 2 ^ doublings < sizeMod :=
    Nat.lt_of_le_of_lt (Nat.le_mul_of_pos_left _ code.itemSize_pos) hbytes
  have hfuel : 2 ^ doublings < 2 ^ 64 :=
    Nat.lt_of_le_of_lt (Nat.le_mul_of_pos_left _ hstart) hsize
  have hdoublings := (Nat.pow_lt_pow_iff_right (by decide)).mp hfuel
  obtain ⟨newCapacity, hloop, hmin, hle⟩ :=
    growCapacity_eq (Nat.lt_succ_of_lt hdoublings) hreach hsize
  exact ⟨newCapacity, hloop, hmin, Nat.lt_of_le_of_lt (Nat.mul_le_mul_left _ hle) hbytes⟩

theorem startCapacity_pos (list : code.Items) : 0 < code.startCapacity list := by
  unfold startCapacity
  split
  · exact Nat.succ_pos 15
  · omega

/-- **`ensure_capacity`** keeps the sequence and makes the room asked for. -/
theorem ensureCapacity_eq {alloc : Alloc code.Slot} (hrealloc : alloc.realloc = true)
    {entries : List code.Entry} {list : code.Items} (hlist : Represents list entries)
    {minCapacity : ℕ} (hgrow : MayGrow list minCapacity) :
    ∃ free, code.ensureCapacity list minCapacity alloc = some (1, listOf entries free) ∧
      minCapacity ≤ entries.length + free ∧ list.capacity ≤ entries.length + free ∧
      code.itemSize * (entries.length + free) < sizeMod := by
  obtain ⟨free, rfl, hfits⟩ := hlist
  rw [ensureCapacity, listOf_capacity]
  by_cases henough : minCapacity ≤ entries.length + free
  · exact ⟨free, if_pos henough, henough, Nat.le_refl _, hfits⟩
  · have hreaches := hgrow (Nat.lt_of_not_le henough)
    obtain ⟨newCapacity, hloop, hmin, hfits'⟩ :=
      growCapacity_of_reaches (startCapacity_pos _) hreaches
    have hmore : entries.length + free ≤ newCapacity := by omega
    obtain ⟨junk, hnew, hjunk⟩ :=
      realloc_eq hrealloc (slotsOf entries free) hfits' (by omega : 0 < newCapacity)
    rw [slotsOf_length] at hjunk
    rw [List.take_of_length_le (by rw [slotsOf_length]; exact hmore)] at hnew
    have hclear := clearNew_eq (slotsOf entries free) junk hjunk
      (Nat.lt_of_le_of_lt (Nat.mul_le_mul_left _ (Nat.sub_le _ _)) hfits')
    rw [slotsOf_length, slotsOf_append_null] at hclear
    refine ⟨newCapacity - entries.length, ?_, by omega, by omega, ?_⟩
    · rw [if_neg henough, hloop]
      simp only [listOf, Option.bind_some, hnew, hclear, Option.map_some]
      rw [show free + (newCapacity - (entries.length + free)) =
          newCapacity - entries.length by omega,
        show entries.length + (newCapacity - entries.length) = newCapacity by omega]
    · rwa [show entries.length + (newCapacity - entries.length) = newCapacity by omega]

/-- Sizes are far from a wrap. -/
theorem length_lt {n : ℕ} (hfits : code.itemSize * n < sizeMod) : n < 0x8000000000000000 := by
  have htwo : 2 * n ≤ code.itemSize * n := Nat.mul_le_mul_right n code.two_le_itemSize
  have hmod : sizeMod = 2 * 0x8000000000000000 := rfl
  omega

theorem succ_mod {n : ℕ} (hfits : code.itemSize * n < sizeMod) : (n + 1) % sizeMod = n + 1 := by
  have hlt := length_lt hfits
  have hmod : sizeMod = 2 * 0x8000000000000000 := rfl
  exact Nat.mod_eq_of_lt (by omega)

theorem count_fits {entries : List code.Entry} {free : ℕ}
    (hfits : code.itemSize * (entries.length + free) < sizeMod) :
    code.itemSize * entries.length < sizeMod :=
  Nat.lt_of_le_of_lt (Nat.mul_le_mul_left _ (Nat.le_add_right _ _)) hfits

/-! ## Storing -/

/-- Room for one more item, with the count that goes with it. -/
theorem makeRoom {alloc : Alloc code.Slot} (hrealloc : alloc.realloc = true)
    {entries : List code.Entry} {list : code.Items} (hlist : Represents list entries)
    (hgrow : MayGrow list (list.count + 1)) :
    ∃ free, code.ensureCapacity list ((list.count + 1) % sizeMod) alloc =
        some (1, listOf entries (free + 1)) ∧
      list.capacity ≤ entries.length + (free + 1) ∧
      code.itemSize * (entries.length + (free + 1)) < sizeMod := by
  have hcount : list.count = entries.length := by
    obtain ⟨free, rfl, -⟩ := hlist
    rfl
  have hmod : (list.count + 1) % sizeMod = list.count + 1 := by
    obtain ⟨free, rfl, hfits⟩ := hlist
    exact succ_mod (count_fits hfits)
  obtain ⟨free, hensure, hmin, hcapacity, hfits⟩ := ensureCapacity_eq hrealloc hlist hgrow
  obtain ⟨free, rfl⟩ : ∃ free', free = free' + 1 := ⟨free - 1, by omega⟩
  exact ⟨free, by rw [hmod, hensure], hcapacity, hfits⟩

theorem slotsOf_succ (entries : List code.Entry) (free : ℕ) :
    slotsOf entries (free + 1) =
      entries.map slotOf ++ code.null :: List.replicate free code.null := rfl

/-- The list with one more item than its count says, after a store has filled the slot. -/
theorem listOf_counted {entries entries' : List code.Entry} {free : ℕ}
    (hlength : entries'.length = entries.length + 1)
    (hfits : code.itemSize * (entries.length + (free + 1)) < sizeMod) :
    (⟨(entries.length + 1) % sizeMod, entries.length + (free + 1),
      some (slotsOf entries' free)⟩ : code.Items) = listOf entries' free := by
  rw [succ_mod (count_fits hfits), listOf, hlength, Nat.add_assoc, Nat.add_comm 1 free]

/-- The next slot is where the new item goes. -/
theorem append_behind (count capacity : ℕ) (entries : List code.Entry) (entry : code.Entry)
    (next : code.Slot) (behind : List code.Slot) :
    code.store ⟨count, capacity, some (entries.map slotOf ++ next :: behind)⟩ entries.length
      (slotOf entry) =
      some ⟨count, capacity, some ((entries ++ [entry]).map slotOf ++ behind)⟩ := by
  have hstore := store_eq count capacity (entries.map slotOf) behind next (slotOf entry)
  rw [List.length_map] at hstore
  rw [hstore, List.map_append, List.append_assoc, List.map_singleton, List.singleton_append]

/-- **`string_list_append`** appends. -/
theorem append_eq {alloc : Alloc code.Slot} (hrealloc : alloc.realloc = true)
    (hdup : alloc.strDup = true) {entries : List code.Entry} {list : code.Items}
    (hlist : Represents list entries) (hgrow : MayGrow list (list.count + 1)) (name : code.Text)
    (data : code.Data) :
    ∃ list', code.append list name data alloc = some (1, list') ∧
      Represents list' (entries ++ [(name, data)]) ∧ list.capacity ≤ list'.capacity := by
  obtain ⟨free, hroom, hcapacity, hfits⟩ := makeRoom hrealloc hlist hgrow
  have hlength : (entries ++ [(name, data)]).length = entries.length + 1 := by simp
  have hstore := append_behind entries.length (entries.length + (free + 1)) entries (name, data)
    code.null (List.replicate free code.null)
  rw [← slotsOf_succ, ← slotsOf] at hstore
  refine ⟨listOf (entries ++ [(name, data)]) free, ?_, ⟨free, rfl, ?_⟩, ?_⟩
  · rw [append, hroom, ← listOf_counted hlength hfits]
    simp only [Option.bind_some, hdup, if_true]
    rw [if_neg (by decide)]
    show (code.store (listOf entries (free + 1)) entries.length (slotOf (name, data))).map _ = _
    rw [listOf, hstore, Option.map_some]
  · rwa [hlength, Nat.add_assoc, Nat.add_comm 1 free]
  · show list.capacity ≤ (entries ++ [(name, data)]).length + free
    omega

/-- The shift to the right opens a gap. -/
theorem shiftRight_eq (count capacity : ℕ) (before moved after : List code.Slot)
    (slot : code.Slot) :
    ∃ gap, code.shiftRight before.length (before.length + moved.length)
        ⟨count, capacity, some (before ++ moved ++ slot :: after)⟩ =
      some ⟨count, capacity, some (before ++ gap :: (moved ++ after))⟩ := by
  induction moved using List.reverseRecOn generalizing slot after with
  | nil =>
      refine ⟨slot, ?_⟩
      cases hlength : before.length with
      | zero => simp [shiftRight]
      | succ n => simp [shiftRight]
  | append_singleton moved last ih =>
      obtain ⟨gap, hgap⟩ := ih (last :: after) last
      refine ⟨gap, ?_⟩
      have hload := load_eq count capacity (before ++ moved) (slot :: after) last
      have hstore := store_eq count capacity (before ++ moved ++ [last]) after slot last
      simp only [List.append_assoc, List.singleton_append, List.length_append]
        at hload hstore hgap ⊢
      rw [List.length_singleton] at hstore ⊢
      rw [← Nat.add_assoc, shiftRight, if_pos (by omega), hload, Option.bind_some]
      rw [← Nat.add_assoc] at hstore
      rw [hstore, Option.bind_some, hgap]

theorem insertIdx_length {α : Type} (before after : List α) (x : α) :
    (before ++ after).insertIdx before.length x = before ++ x :: after := by
  induction before with
  | nil => rfl
  | cons y before ih => simp [List.insertIdx_succ_cons, ih]

theorem exists_cut {α : Type} {items : List α} {index : ℕ} (hle : index ≤ items.length) :
    ∃ before after, items = before ++ after ∧ before.length = index :=
  ⟨items.take index, items.drop index, (List.take_append_drop index items).symm, by simp [hle]⟩

/-- The gap is where the new item goes. -/
theorem insert_behind (count capacity : ℕ) (before after : List code.Entry) (entry : code.Entry)
    (next : code.Slot) (behind : List code.Slot) :
    ((code.shiftRight before.length (before ++ after).length
        ⟨count, capacity, some ((before ++ after).map slotOf ++ next :: behind)⟩).bind
      fun shifted => code.store shifted before.length (slotOf entry)) =
      some ⟨count, capacity, some ((before ++ entry :: after).map slotOf ++ behind)⟩ := by
  obtain ⟨gap, hshift⟩ := shiftRight_eq count capacity (before.map slotOf) (after.map slotOf)
    behind next
  have hstore := store_eq count capacity (before.map slotOf) (after.map slotOf ++ behind) gap
    (slotOf entry)
  rw [← List.map_append, List.length_map, List.length_map, ← List.length_append] at hshift
  rw [List.length_map] at hstore
  rw [hshift, Option.bind_some, hstore, List.map_append, List.map_cons, List.append_assoc,
    List.cons_append]

/-- **`string_list_insert`** inserts, or refuses an index behind the end. -/
theorem insert_eq {alloc : Alloc code.Slot} (hrealloc : alloc.realloc = true)
    (hdup : alloc.strDup = true) {entries : List code.Entry} {list : code.Items}
    (hlist : Represents list entries) {index : ℕ} (hindex : index ≤ entries.length)
    (hgrow : MayGrow list (list.count + 1)) (name : code.Text) (data : code.Data) :
    ∃ list', code.insert list index name data alloc = some (1, list') ∧
      Represents list' (entries.insertIdx index (name, data)) := by
  obtain ⟨free, hroom, -, hfits⟩ := makeRoom hrealloc hlist hgrow
  have hcount : list.count = entries.length := by
    obtain ⟨free, rfl, -⟩ := hlist
    rfl
  obtain ⟨before, after, rfl, rfl⟩ := exists_cut hindex
  rw [insertIdx_length]
  have hlength : (before ++ (name, data) :: after).length = (before ++ after).length + 1 := by
    rw [List.length_append, List.length_append, List.length_cons, Nat.add_assoc]
  have hinsert := insert_behind (before ++ after).length
    ((before ++ after).length + (free + 1)) before after (name, data) code.null
    (List.replicate free code.null)
  rw [← slotsOf_succ, ← slotsOf] at hinsert
  obtain ⟨shifted, hshift, hstore⟩ := Option.bind_eq_some_iff.mp hinsert
  refine ⟨listOf (before ++ (name, data) :: after) free, ?_, free, rfl, ?_⟩
  · rw [insert, hroom, hcount, if_neg (Nat.not_lt.mpr hindex), ← listOf_counted hlength hfits]
    simp only [Option.bind_some, hdup, if_true]
    rw [if_neg (by decide)]
    show ((code.shiftRight before.length (before ++ after).length
      (listOf (before ++ after) (free + 1))).bind _) = _
    rw [listOf, hshift, Option.bind_some]
    show (code.store shifted before.length (slotOf (name, data))).map _ = _
    rw [hstore, Option.map_some]
  · rwa [hlength, Nat.add_assoc, Nat.add_comm 1 free]

/-! ## Removing -/

/-- The shift to the left closes a gap. -/
theorem shiftLeft_eq (count capacity : ℕ) (before moved after : List code.Slot)
    (gap : code.Slot) :
    ∃ last, code.shiftLeft moved.length before.length
        ⟨count, capacity, some (before ++ gap :: (moved ++ after))⟩ =
      some ⟨count, capacity, some (before ++ (moved ++ last :: after))⟩ := by
  induction moved generalizing before gap with
  | nil => exact ⟨gap, rfl⟩
  | cons slot moved ih =>
      obtain ⟨last, hlast⟩ := ih (before ++ [slot]) slot
      refine ⟨last, ?_⟩
      have hload := load_eq count capacity (before ++ [gap]) (moved ++ after) slot
      have hstore := store_eq count capacity before (slot :: (moved ++ after)) gap slot
      simp only [List.append_assoc, List.singleton_append, List.length_append,
        List.length_singleton] at hload hlast
      rw [List.length_cons, shiftLeft, List.cons_append, hload, Option.bind_some, hstore,
        Option.bind_some, hlast, List.cons_append]

/-- The items behind the removed one move up, and leave a null slot behind them. -/
theorem remove_behind (capacity : ℕ) (before after : List code.Entry) (entry : code.Entry)
    (behind : List code.Slot) :
    code.remove ⟨(before ++ entry :: after).length, capacity,
        some ((before ++ entry :: after).map slotOf ++ behind)⟩ before.length =
      some (1, ⟨(before ++ after).length, capacity,
        some ((before ++ after).map slotOf ++ code.null :: behind)⟩) := by
  have hlength : (before ++ entry :: after).length = (before ++ after).length + 1 := by
    rw [List.length_append, List.length_append, List.length_cons, Nat.add_assoc]
  have hindex : ¬ (before ++ entry :: after).length ≤ before.length := by
    rw [hlength, List.length_append]
    omega
  have hslots : (before ++ entry :: after).map slotOf ++ behind =
      before.map slotOf ++ slotOf entry :: (after.map slotOf ++ behind) := by simp
  obtain ⟨last, hshift⟩ := shiftLeft_eq (before ++ entry :: after).length capacity
    (before.map slotOf) (after.map slotOf) behind (slotOf entry)
  have hload := load_eq (before ++ entry :: after).length capacity (before.map slotOf)
    (after.map slotOf ++ behind) (slotOf entry)
  have hstore := store_eq (before ++ after).length capacity
    (before.map slotOf ++ after.map slotOf) behind last code.null
  rw [List.length_map] at hload
  rw [List.length_map, List.length_map] at hshift
  rw [← List.map_append, List.length_map] at hstore
  have hrounds : (before ++ entry :: after).length - 1 - before.length = after.length := by
    rw [hlength, Nat.add_sub_cancel, List.length_append, Nat.add_sub_cancel_left]
  rw [remove, if_neg hindex, hslots, hload, Option.bind_some, hrounds, hshift, Option.bind_some]
  show (code.store ⟨(before ++ entry :: after).length - 1, _, _⟩
    ((before ++ entry :: after).length - 1) code.null).map _ = _
  rw [hlength, Nat.add_sub_cancel, ← List.append_assoc, ← List.map_append, hstore,
    Option.map_some]

/-- **`string_list_remove`** removes. -/
theorem remove_eq {entries : List code.Entry} {list : code.Items}
    (hlist : Represents list entries) {index : ℕ} (hindex : index < entries.length) :
    ∃ list', code.remove list index = some (1, list') ∧
      Represents list' (entries.eraseIdx index) := by
  obtain ⟨free, rfl, hfits⟩ := hlist
  obtain ⟨before, after, rfl, rfl⟩ := exists_cut (Nat.le_of_lt hindex)
  cases after with
  | nil => simp at hindex
  | cons entry after =>
      have herase : (before ++ entry :: after).eraseIdx before.length = before ++ after := by
        rw [List.eraseIdx_append_of_length_le (Nat.le_refl _), Nat.sub_self]
        rfl
      have hlength : (before ++ entry :: after).length = (before ++ after).length + 1 := by
        rw [List.length_append, List.length_append, List.length_cons, Nat.add_assoc]
      rw [herase]
      have hremove := remove_behind ((before ++ entry :: after).length + free) before after entry
        (List.replicate free code.null)
      rw [← slotsOf_succ] at hremove
      refine ⟨listOf (before ++ after) (free + 1), ?_, free + 1, rfl, ?_⟩
      · rw [listOf, slotsOf, hremove, listOf, hlength, Nat.add_assoc, Nat.add_comm 1 free]
      · rw [hlength] at hfits
        rwa [Nat.add_comm free 1, ← Nat.add_assoc]

theorem clearSlots_eq (count capacity : ℕ) (before used after : List code.Slot) :
    code.clearSlots used.length before.length
        ⟨count, capacity, some (before ++ (used ++ after))⟩ =
      some ⟨count, capacity, some (before ++ (List.replicate used.length code.null ++ after))⟩ := by
  induction used generalizing before with
  | nil => rfl
  | cons slot used ih =>
      have hload := load_eq count capacity before (used ++ after) slot
      have hstore := store_eq count capacity before (used ++ after) slot code.null
      have hrest := ih (before ++ [code.null])
      simp only [List.append_assoc, List.singleton_append, List.length_append,
        List.length_singleton] at hrest
      rw [List.length_cons, clearSlots, List.cons_append, hload, Option.bind_some, hstore,
        Option.bind_some, hrest, List.replicate_succ, List.cons_append]

/-- Clearing nulls the slots in use. -/
theorem clear_behind (capacity : ℕ) (entries : List code.Entry) (behind : List code.Slot) :
    code.clear ⟨entries.length, capacity, some (entries.map slotOf ++ behind)⟩ =
      some ⟨0, capacity, some (List.replicate entries.length code.null ++ behind)⟩ := by
  have hclear := clearSlots_eq entries.length capacity [] (entries.map slotOf) behind
  rw [List.length_map, List.nil_append, List.nil_append, List.length_nil] at hclear
  rw [clear, hclear, Option.map_some]

/-- **`string_list_clear`** empties the list and keeps its array. -/
theorem clear_eq {entries : List code.Entry} {list : code.Items}
    (hlist : Represents list entries) :
    ∃ list', code.clear list = some list' ∧ Represents list' [] := by
  obtain ⟨free, rfl, hfits⟩ := hlist
  refine ⟨listOf [] (entries.length + free), ?_, entries.length + free, rfl, by simpa using hfits⟩
  rw [listOf, slotsOf, clear_behind, List.replicate_append_replicate]
  simp [listOf, slotsOf]

theorem loadAll_eq (count capacity : ℕ) (before used after : List code.Slot) :
    code.loadAll used.length before.length
      ⟨count, capacity, some (before ++ (used ++ after))⟩ = some () := by
  induction used generalizing before with
  | nil => rfl
  | cons slot used ih =>
      have hload := load_eq count capacity before (used ++ after) slot
      have hrest := ih (before ++ [slot])
      simp only [List.append_assoc, List.singleton_append, List.length_append,
        List.length_singleton] at hrest
      rw [List.length_cons, loadAll, List.cons_append, hload, Option.bind_some, hrest]

/-- The slots that a new array starts with: the items that fit, and anything behind them. -/
theorem slotsOf_take (entries : List code.Entry) (free n : ℕ) (junk : List code.Slot)
    (hjunk : junk.length = n - (slotsOf entries free).length) :
    ∃ rest, (slotsOf entries free).take n ++ junk = (entries.take n).map slotOf ++ rest ∧
      rest.length = n - (entries.take n).length := by
  refine ⟨(List.replicate free code.null).take (n - entries.length) ++ junk, ?_, ?_⟩
  · rw [slotsOf, List.take_append, List.length_map, List.map_take, List.append_assoc]
  · rw [slotsOf_length] at hjunk
    rw [List.length_append, List.length_take, List.length_take, List.length_replicate, hjunk]
    omega

/-- The strings behind the new capacity are there to be freed. -/
theorem loadAll_behind (capacity : ℕ) (entries : List code.Entry) (behind : List code.Slot)
    (newCapacity : ℕ) :
    code.loadAll (entries.length - newCapacity) newCapacity
      ⟨entries.length, capacity, some (entries.map slotOf ++ behind)⟩ = some () := by
  by_cases hle : newCapacity ≤ entries.length
  · obtain ⟨before, after, rfl, rfl⟩ := exists_cut hle
    have hload := loadAll_eq (before ++ after).length capacity (before.map slotOf)
      (after.map slotOf) behind
    rw [List.length_map, List.length_map, ← List.append_assoc, ← List.map_append] at hload
    rw [List.length_append, Nat.add_sub_cancel_left]
    rw [List.length_append] at hload
    exact hload
  · rw [Nat.sub_eq_zero_of_le (Nat.le_of_not_le hle)]
    rfl

/-- The count is cut to the new capacity. -/
theorem cutCount_eq {list : code.Items} {entries : List code.Entry}
    (hcount : list.count = entries.length) (newCapacity : ℕ) :
    (if newCapacity < list.count then { list with count := newCapacity } else list) =
      { list with count := (entries.take newCapacity).length } := by
  rw [List.length_take, hcount]
  split_ifs with hlt
  · rw [Nat.min_eq_left (Nat.le_of_lt hlt)]
  · rw [Nat.min_eq_right (Nat.le_of_not_lt hlt), ← hcount]

/-- **`string_list_resize`** keeps the items that the new capacity has room for. -/
theorem resize_eq {alloc : Alloc code.Slot} (hrealloc : alloc.realloc = true)
    {entries : List code.Entry} {list : code.Items} (hlist : Represents list entries)
    {newCapacity : ℕ} (hfits' : code.itemSize * newCapacity < sizeMod) :
    ∃ list', code.resize list newCapacity alloc = some (1, list') ∧
      Represents list' (entries.take newCapacity) := by
  obtain ⟨free, rfl, hfits⟩ := hlist
  have hfree : code.loadAll (entries.length - newCapacity) newCapacity (listOf entries free) =
      some () := loadAll_behind _ entries _ newCapacity
  have hcount := cutCount_eq (listOf_count entries free) newCapacity
  refine ⟨listOf (entries.take newCapacity) (newCapacity - (entries.take newCapacity).length), ?_,
    _, rfl, ?_⟩
  · rw [resize, listOf_count, hfree, Option.bind_some, ← listOf_count entries free, hcount]
    simp only [listOf_items, Option.bind_some]
    by_cases hpos : 0 < newCapacity
    · obtain ⟨junk, hnew, hjunk⟩ := realloc_eq hrealloc (slotsOf entries free) hfits' hpos
      obtain ⟨rest, hsplit, hrest⟩ := slotsOf_take entries free newCapacity junk hjunk
      rw [hnew, hsplit]
      simp only [Option.isNone_some, Bool.false_eq_true, false_and, if_false, Option.getD_some]
      split_ifs with hshort
      · have hclear := clearNew_eq ((entries.take newCapacity).map slotOf) rest hrest
          (Nat.lt_of_le_of_lt (Nat.mul_le_mul_left _ (Nat.sub_le _ _)) hfits')
        rw [List.length_map] at hclear
        rw [hclear, Option.map_some, listOf, Nat.add_sub_of_le (List.length_take_le _ _)]
        rfl
      · have hzero : newCapacity - (entries.take newCapacity).length = 0 := by omega
        have hfull : (entries.take newCapacity).length = newCapacity := by
          have hle := List.length_take_le newCapacity entries
          omega
        rw [hzero] at hrest
        rw [List.eq_nil_of_length_eq_zero hrest, hzero, List.append_nil, listOf, slotsOf,
          List.replicate_zero, List.append_nil, Nat.add_zero, hfull]
    · obtain rfl : newCapacity = 0 := by omega
      have hempty : (code.realloc alloc (slotsOf entries free) (code.bytes 0)).getD [] = [] := by
        have hzero : code.bytes 0 = 0 := by rw [bytes, Nat.mul_zero, Nat.zero_mod]
        rw [realloc, if_pos hzero]
        split <;> rfl
      rw [hempty]
      simp [listOf, slotsOf]
  · rwa [Nat.add_sub_of_le (List.length_take_le _ _)]

/-- Reading is about the items, whatever is behind them. -/
theorem get_behind (capacity : ℕ) (entries : List code.Entry) (behind : List code.Slot)
    (index : ℕ) :
    code.get ⟨entries.length, capacity, some (entries.map slotOf ++ behind)⟩ index =
      some (entries[index]?.map slotOf) := by
  rw [get]
  split_ifs with hindex
  · rw [List.getElem?_eq_none hindex, Option.map_none]
  · obtain ⟨before, after, rfl, rfl⟩ := exists_cut (Nat.le_of_not_le hindex)
    cases after with
    | nil => simp at hindex
    | cons entry after =>
        rw [load_behind, Option.map_some, List.getElem?_append_right (Nat.le_refl _),
          Nat.sub_self, List.getElem?_cons_zero, Option.map_some]

/-- **`string_list_get`** returns the slot of the item. -/
theorem get_eq {entries : List code.Entry} {list : code.Items}
    (hlist : Represents list entries) (index : ℕ) :
    code.get list index = some (entries[index]?.map slotOf) := by
  obtain ⟨free, rfl, -⟩ := hlist
  exact get_behind _ entries _ index

/-- The first index of a string, or `-1`. -/
def FindsFirst (entries : List code.Entry) (text : code.Text) (index : ℤ) : Prop :=
  (∃ before entry after, entries = before ++ entry :: after ∧ entry.1 = text ∧
      (∀ other ∈ before, other.1 ≠ text) ∧ index = before.length) ∨
    (∀ entry ∈ entries, entry.1 ≠ text) ∧ index = -1

theorem findFrom_eq {before after : List code.Entry} {free : ℕ} (text : code.Text)
    (hfits : code.itemSize * ((before ++ after).length + free) < sizeMod)
    (hbefore : ∀ entry ∈ before, entry.1 ≠ text) :
    ∃ index, code.findFrom (listOf (before ++ after) free) text after.length before.length =
      some index ∧ FindsFirst (before ++ after) text index := by
  induction after generalizing before with
  | nil => exact ⟨-1, rfl, Or.inr ⟨by simpa using hbefore, rfl⟩⟩
  | cons entry after ih =>
      have hsplit : before ++ entry :: after = (before ++ [entry]) ++ after := by simp
      rw [List.length_cons, findFrom, load_slot, Option.bind_some]
      show ∃ index,
        (if code.compare entry.1 text = 0 then some (toSsize before.length) else _) = _ ∧ _
      by_cases hentry : entry.1 = text
      · have hlt : before.length < 0x8000000000000000 := by
          have := length_lt (count_fits hfits)
          rw [List.length_append] at this
          omega
        rw [if_pos ((code.compare_eq_zero_iff _ _).mpr hentry), toSsize_of_lt hlt]
        exact ⟨before.length, rfl, Or.inl ⟨before, entry, after, rfl, hentry, hbefore, rfl⟩⟩
      · rw [if_neg (fun hzero => hentry ((code.compare_eq_zero_iff _ _).mp hzero))]
        rw [hsplit] at hfits ⊢
        have hbefore' : ∀ other ∈ before ++ [entry], other.1 ≠ text := by
          simpa [or_imp, forall_and, hentry] using hbefore
        obtain ⟨index, hfind, hfirst⟩ := ih hfits hbefore'
        rw [List.length_append, List.length_singleton] at hfind
        exact ⟨index, hfind, hfirst⟩

/-- **`string_list_find`** finds the first index of an equal string. -/
theorem find_eq {entries : List code.Entry} {list : code.Items}
    (hlist : Represents list entries) (text : code.Text) :
    ∃ index, code.find list text = some index ∧ FindsFirst entries text index := by
  obtain ⟨free, rfl, hfits⟩ := hlist
  have hempty : code.itemSize * (([] ++ entries).length + free) < sizeMod := hfits
  exact findFrom_eq text hempty (by simp)

/-- All allocations succeed. -/
def Succeeds (alloc : Alloc code.Slot) : Prop :=
  alloc.malloc = true ∧ alloc.realloc = true ∧ alloc.strDup = true

theorem represents_empty : Represents (⟨0, 0, some []⟩ : code.Items) [] :=
  ⟨0, rfl, by rw [List.length_nil, Nat.mul_zero]; decide⟩

/-- **`string_list_create`** makes an empty list with room for the items. -/
theorem create_eq {alloc : Alloc code.Slot} (halloc : Succeeds alloc) {initialCapacity : ℕ}
    (hgrow : MayGrow (⟨0, 0, some []⟩ : code.Items) initialCapacity) :
    ∃ list, code.create initialCapacity alloc = some (some list) ∧ Represents list [] ∧
      initialCapacity ≤ list.capacity := by
  rw [create, if_pos halloc.1]
  split_ifs with hpos
  · obtain ⟨free, hensure, hmin, -, hfits⟩ :=
      ensureCapacity_eq halloc.2.1 represents_empty hgrow
    rw [hensure, Option.map_some, if_neg Int.one_ne_zero]
    exact ⟨_, rfl, ⟨free, rfl, hfits⟩, hmin⟩
  · exact ⟨_, rfl, represents_empty, Nat.le_of_not_lt hpos⟩

theorem copyFrom_eq {allocs : ℕ → Alloc code.Slot} (hallocs : ∀ i, Succeeds (allocs i))
    {before after : List code.Entry} (free : ℕ) {copy : code.Items}
    (hcopy : Represents copy before) (hroom : (before ++ after).length ≤ copy.capacity) :
    ∃ copy', code.copyFrom (listOf (before ++ after) free) allocs after.length before.length copy =
      some (some copy') ∧ Represents copy' (before ++ after) := by
  induction after generalizing before copy with
  | nil => exact ⟨copy, rfl, by simpa using hcopy⟩
  | cons entry after ih =>
      have hsplit : before ++ entry :: after = (before ++ [entry]) ++ after := by simp
      have hcount : copy.count = before.length := by
        obtain ⟨free', rfl, -⟩ := hcopy
        rfl
      have hgrow : MayGrow copy (copy.count + 1) := by
        intro hfull
        rw [List.length_append, List.length_cons] at hroom
        omega
      obtain ⟨copy', happend, hcopy', hcapacity⟩ :=
        append_eq (hallocs before.length).2.1 (hallocs before.length).2.2 hcopy hgrow entry.1
          entry.2
      rw [hsplit] at hroom
      obtain ⟨final, hfinal, hrepresents⟩ := ih hcopy' (Nat.le_trans hroom hcapacity)
      rw [← hsplit, List.length_append, List.length_singleton] at hfinal
      rw [← hsplit] at hrepresents
      refine ⟨final, ?_, hrepresents⟩
      rw [List.length_cons, copyFrom, load_slot, Option.bind_some]
      show ((code.append copy entry.1 entry.2 (allocs before.length)).bind _) = _
      rw [happend, Option.bind_some, if_neg Int.one_ne_zero]
      exact hfinal

/-- **`string_list_copy`** makes a list of its own with the same items. -/
theorem copy_eq {alloc : Alloc code.Slot} {allocs : ℕ → Alloc code.Slot} (halloc : Succeeds alloc)
    (hallocs : ∀ i, Succeeds (allocs i)) {entries : List code.Entry} {list : code.Items}
    (hlist : Represents list entries)
    (hgrow : MayGrow (⟨0, 0, some []⟩ : code.Items) list.capacity) :
    ∃ list', code.copy list alloc allocs = some (some list') ∧ Represents list' entries := by
  obtain ⟨copy, hcreate, hcopy, hcapacity⟩ := create_eq halloc hgrow
  obtain ⟨free, rfl, -⟩ := hlist
  have hroom : ([] ++ entries).length ≤ copy.capacity :=
    Nat.le_trans (Nat.le_add_right _ free) hcapacity
  obtain ⟨copy', hcopied, hrepresents⟩ := copyFrom_eq hallocs free hcopy hroom
  refine ⟨copy', ?_, hrepresents⟩
  rw [ListCode.copy, hcreate, Option.bind_some]
  exact hcopied

end ListCode

end BasC
