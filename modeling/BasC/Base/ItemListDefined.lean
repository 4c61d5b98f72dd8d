/-
# Calls that are defined

A call on a growable list is undefined when it touches a slot that the array does not have, and
that comes only from a byte count that has wrapped. As long as an array has all the slots of its
capacity, and no call asks for more slots than there are bytes, every call is defined and leaves
such an array, whatever its allocations come to.
-/

import BasC.Base.ItemListCapacity

namespace BasC

namespace ListCode

variable {code : ListCode} {list list' : code.Items} {alloc : Alloc code.Slot}

/-- The array has all the slots of the capacity. -/
def Whole (list : code.Items) : Prop :=
  ∃ slots, list.items = some slots ∧ slots.length = list.capacity

/-- The byte counts of a call on the list do not wrap. -/
def SizesFit (list : code.Items) : ListOp code → Prop
  | .append _ _ _ => MayGrow list (list.count + 1)
  | .insert index _ _ _ => index ≤ list.count → MayGrow list (list.count + 1)
  | .resize newCapacity _ => code.itemSize * newCapacity < sizeMod
  | _ => True

/-- A new list without a slot. -/
theorem whole_empty : Whole (⟨0, 0, some []⟩ : code.Items) := ⟨[], rfl, rfl⟩

theorem Whole.load (hlist : Whole list) {index : ℕ} (hindex : index < list.capacity) :
    ∃ slot, code.load list index = some slot := by
  obtain ⟨slots, hitems, hlength⟩ := hlist
  refine ⟨slots[index], ?_⟩
  rw [ListCode.load, hitems, Option.bind_some, List.getElem?_eq_getElem]

theorem Whole.store (hlist : Whole list) {index : ℕ} (hindex : index < list.capacity)
    (slot : code.Slot) :
    ∃ list', code.store list index slot = some list' ∧ Whole list' ∧
      list'.capacity = list.capacity := by
  obtain ⟨slots, hitems, hlength⟩ := hlist
  refine ⟨{ list with items := some (slots.set index slot) }, ?_, ⟨_, rfl, ?_⟩, rfl⟩
  · rw [ListCode.store, hitems, Option.bind_some, if_pos (by omega)]
  · rw [List.length_set, hlength]

theorem Whole.shiftRight (hlist : Whole list) {n : ℕ} (hn : n < list.capacity) (index : ℕ) :
    ∃ list', code.shiftRight index n list = some list' ∧ Whole list' ∧
      list'.capacity = list.capacity := by
  induction n generalizing list with
  | zero => exact ⟨list, rfl, hlist, rfl⟩
  | succ n ih =>
      rw [ListCode.shiftRight]
      by_cases hindex : index < n + 1
      · obtain ⟨item, hload⟩ := hlist.load (Nat.lt_of_succ_lt hn)
        obtain ⟨stored, hstore, hstored, hcapacity⟩ := hlist.store hn item
        obtain ⟨shifted, hshift, hshifted, hsame⟩ := ih hstored (by omega)
        refine ⟨shifted, ?_, hshifted, hsame.trans hcapacity⟩
        rw [if_pos hindex, hload, Option.bind_some, hstore, Option.bind_some, hshift]
      · exact ⟨list, if_neg hindex, hlist, rfl⟩

theorem Whole.findFrom (hlist : Whole list) (text : code.Text) {rounds i : ℕ}
    (hroom : i + rounds ≤ list.capacity) :
    ∃ index, code.findFrom list text rounds i = some index := by
  induction rounds generalizing i with
  | zero => exact ⟨-1, rfl⟩
  | succ rounds ih =>
      obtain ⟨item, hload⟩ := @Whole.load _ _ hlist i (by omega)
      obtain ⟨index, hrest⟩ := @ih (i + 1) (by omega)
      rw [ListCode.findFrom, hload, Option.bind_some]
      cases item.name with
      | none => exact ⟨index, hrest⟩
      | some name =>
          by_cases hsame : code.compare name text = 0
          · exact ⟨_, if_pos hsame⟩
          · exact ⟨index, (if_neg hsame).trans hrest⟩

/-- The array is replaced by one that has room, or stays. -/
theorem Whole.ensureCapacity (hlist : Whole list) {minCapacity : ℕ}
    (hmay : MayGrow list minCapacity) (alloc : Alloc code.Slot) :
    ∃ ret list', code.ensureCapacity list minCapacity alloc = some (ret, list') ∧ Whole list' ∧
      list.capacity ≤ list'.capacity ∧ list'.count = list.count ∧
      (ret ≠ 0 → minCapacity ≤ list'.capacity) := by
  by_cases henough : minCapacity ≤ list.capacity
  · exact ⟨1, list, if_pos henough, hlist, Nat.le_refl _, rfl, fun _ => henough⟩
  · obtain ⟨slots, hitems, hlength⟩ := hlist
    obtain ⟨newCapacity, hgrow, hmin, hfits⟩ :=
      growCapacity_of_reaches (startCapacity_pos list) (hmay (Nat.lt_of_not_le henough))
    have hbytes : code.bytes newCapacity ≠ 0 := by
      rw [(bytes_div hfits).1]
      exact Nat.mul_ne_zero code.itemSize_pos.ne' (by omega)
    rw [ListCode.ensureCapacity, if_neg henough, hgrow, Option.bind_some, hitems, Option.bind_some]
    cases hrealloc : code.realloc alloc slots (code.bytes newCapacity) with
    | none =>
        refine ⟨0, list, ?_, ⟨slots, hitems, hlength⟩, Nat.le_refl _, rfl, ?_⟩
        · rw [kept, if_neg hbytes, ← hitems]
        · exact fun hne => absurd rfl hne
    | some newItems =>
        have hnew := realloc_length hrealloc hfits
        have hroom : list.capacity + (newCapacity - list.capacity) ≤ newItems.length := by omega
        obtain ⟨cleared, hclear⟩ := clearNew_defined hroom
          (Nat.lt_of_le_of_lt (Nat.mul_le_mul_left _ (Nat.sub_le _ _)) hfits)
        have hsame := (clearNew_some hclear).2.1
        refine ⟨1, { list with items := some cleared, capacity := newCapacity }, ?_,
          ⟨cleared, rfl, hsame.trans hnew⟩, ?_, rfl, fun _ => hmin⟩
        · show (code.clearNew newItems _ _).map _ = _
          rw [hclear, Option.map_some]
        · show list.capacity ≤ newCapacity
          omega

/-- A call that makes room before it stores is defined when the storing is. -/
theorem Whole.withRoom (hlist : Whole list) (hmay : MayGrow list (list.count + 1))
    (hsmall : (list.count + 1) % sizeMod = list.count + 1)
    {storing : ℤ × code.Items → Option (ℤ × code.Items)}
    (hstoring : ∀ ret grown, Whole grown → grown.count = list.count →
      list.count < grown.capacity → ∃ ret' list', storing (ret, grown) = some (ret', list') ∧
        Whole list' ∧ list'.capacity = grown.capacity) :
    ∃ ret list', ((code.ensureCapacity list ((list.count + 1) % sizeMod) alloc).bind fun grown =>
      if grown.1 = 0 then some (0, grown.2)
      else if alloc.strDup then storing grown
      else some (0, grown.2)) = some (ret, list') ∧ Whole list' ∧
        list.capacity ≤ list'.capacity := by
  rw [hsmall]
  obtain ⟨ret, grown, hensure, hgrown, hle, hcount, hroom⟩ := hlist.ensureCapacity hmay alloc
  rw [hensure, Option.bind_some]
  by_cases hret : ret = 0
  · exact ⟨0, grown, if_pos hret, hgrown, hle⟩
  · rw [if_neg hret]
    split_ifs with hdup
    · obtain ⟨ret', list', hstored, hlist', hcapacity⟩ :=
        hstoring ret grown hgrown hcount (hroom hret)
      exact ⟨ret', list', hstored, hlist', hle.trans hcapacity.ge⟩
    · exact ⟨0, grown, rfl, hgrown, hle⟩

section Calls

variable {entries : List code.Entry} {slots : List code.Slot}

theorem Holds.append_defined (hlist : Holds list entries slots) (hwhole : Whole list)
    (hmay : MayGrow list (list.count + 1)) (name : code.Text) (data : code.Data)
    (alloc : Alloc code.Slot) :
    ∃ ret list', code.append list name data alloc = some (ret, list') ∧ Whole list' ∧
      list.capacity ≤ list'.capacity := by
  have hsmall : (list.count + 1) % sizeMod = list.count + 1 := by
    rw [hlist.succ_mod, hlist.count_eq]
  refine hwhole.withRoom hmay hsmall fun ret grown hgrown hcount hroom => ?_
  obtain ⟨stored, hstore, hstored, hcapacity⟩ :=
    hgrown.store (hcount.trans_lt hroom) ⟨some name, data⟩
  exact ⟨1, { stored with count := (stored.count + 1) % sizeMod }, by rw [hstore, Option.map_some],
    hstored, hcapacity⟩

theorem Holds.insert_defined (hlist : Holds list entries slots) (hwhole : Whole list) {index : ℕ}
    (hmay : index ≤ list.count → MayGrow list (list.count + 1)) (name : code.Text)
    (data : code.Data) (alloc : Alloc code.Slot) :
    ∃ ret list', code.insert list index name data alloc = some (ret, list') ∧ Whole list' := by
  by_cases hindex : list.count < index
  · exact ⟨0, list, if_pos hindex, hwhole⟩
  rw [Nat.not_lt] at hindex
  have hsmall : (list.count + 1) % sizeMod = list.count + 1 := by
    rw [hlist.succ_mod, hlist.count_eq]
  rw [ListCode.insert, if_neg (Nat.not_lt.mpr hindex)]
  have hcall := @Whole.withRoom _ _ alloc hwhole (hmay hindex) hsmall (fun grown =>
    (code.shiftRight index grown.2.count grown.2).bind fun shifted =>
      (code.store shifted index ⟨some name, data⟩).map fun stored =>
        (1, { stored with count := (stored.count + 1) % sizeMod }))
    fun ret grown hgrown hcount hroom => by
      obtain ⟨shifted, hshift, hshifted, hcapacity⟩ :=
        hgrown.shiftRight (hcount.trans_lt hroom) index
      obtain ⟨stored, hstore, hstored, hsame⟩ := @Whole.store _ _ hshifted index
        (by omega) ⟨some name, data⟩
      refine ⟨1, { stored with count := (stored.count + 1) % sizeMod }, ?_, hstored,
        hsame.trans hcapacity⟩
      dsimp only
      rw [hshift, Option.bind_some, hstore, Option.map_some]
  obtain ⟨ret, list', hstep, hlist', -⟩ := hcall
  exact ⟨ret, list', hstep, hlist'⟩

/-- A list that has its items where another one has an array of the same length. -/
theorem Whole.of_length (hlist : Holds list entries slots) (hwhole : Whole list) {count : ℕ}
    {slots' : List code.Slot} (hlength : slots'.length = slots.length) :
    Whole (⟨count, list.capacity, some slots'⟩ : code.Items) := by
  obtain ⟨slots'', hitems, hfull⟩ := hwhole
  obtain rfl := Option.some.inj (hlist.items_eq.symm.trans hitems)
  exact ⟨slots', rfl, hlength.trans hfull⟩

theorem Holds.remove_defined (hlist : Holds list entries slots) (hwhole : Whole list) (index : ℕ) :
    ∃ ret list', code.remove list index = some (ret, list') ∧ Whole list' := by
  by_cases hindex : list.count ≤ index
  · exact ⟨0, list, if_pos hindex, hwhole⟩
  · rw [hlist.count_eq] at hindex
    obtain ⟨behind, rfl, hlist'⟩ := hlist.exists_behind
    obtain ⟨before, after, rfl, rfl⟩ := exists_cut (Nat.le_of_not_le hindex)
    cases after with
    | nil => simp at hindex
    | cons entry after =>
        have hremove := remove_behind list.capacity before after entry behind
        rw [← hlist'] at hremove
        refine ⟨1, _, hremove, hwhole.of_length hlist ?_⟩
        simp only [List.length_append, List.length_map, List.length_cons]
        omega

theorem Holds.clear_defined (hlist : Holds list entries slots) (hwhole : Whole list) :
    ∃ list', code.clear list = some list' ∧ Whole list' := by
  obtain ⟨behind, rfl, hlist'⟩ := hlist.exists_behind
  have hclear := clear_behind list.capacity entries behind
  rw [← hlist'] at hclear
  exact ⟨_, hclear, hwhole.of_length hlist (by simp)⟩

theorem Holds.sort_defined (hlist : Holds list entries slots) (hwhole : Whole list)
    (sorter : code.SlotSorter) : ∃ list', code.sort list sorter = some list' ∧ Whole list' := by
  obtain ⟨behind, rfl, hlist'⟩ := hlist.exists_behind
  obtain ⟨sorted, hperm, -, hsort⟩ := sort_behind list.capacity entries behind sorter
  rw [← hlist'] at hsort
  exact ⟨_, hsort, hwhole.of_length hlist (by simp [hperm.length_eq])⟩

theorem Holds.frees_defined (hlist : Holds list entries slots) (hwhole : Whole list)
    (sorter : code.SlotSorter) :
    ∃ freed list', code.frees list sorter = some (freed, list') ∧ Whole list' := by
  obtain ⟨behind, rfl, hlist'⟩ := hlist.exists_behind
  obtain ⟨freed, sorted, gap, -, -, -, hgap, hfrees⟩ :=
    frees_behind list.capacity entries behind sorter
  rw [← hlist'] at hfrees
  refine ⟨_, _, hfrees, hwhole.of_length hlist ?_⟩
  simp only [List.length_append, List.length_map, List.length_replicate]
  omega

theorem Holds.resize_defined (hlist : Holds list entries slots) (hwhole : Whole list)
    {newCapacity : ℕ} (hfits : code.itemSize * newCapacity < sizeMod) (alloc : Alloc code.Slot) :
    ∃ ret list', code.resize list newCapacity alloc = some (ret, list') ∧ Whole list' := by
  rw [ListCode.resize, hlist.loadAll, Option.bind_some]
  simp only [cutCount_eq hlist.count_eq]
  rw [hlist.items_eq, Option.bind_some]
  cases hrealloc : code.realloc alloc slots (code.bytes newCapacity) with
  | none =>
      by_cases hpos : 0 < newCapacity
      · rw [if_pos ⟨rfl, hpos⟩]
        refine ⟨0, _, rfl, ?_⟩
        have hbytes : code.bytes newCapacity ≠ 0 := by
          rw [(bytes_div hfits).1]
          exact Nat.mul_ne_zero code.itemSize_pos.ne' hpos.ne'
        rw [kept, if_neg hbytes]
        exact hwhole.of_length hlist rfl
      · rw [if_neg fun h => hpos h.2, if_neg fun h => hpos (Nat.zero_lt_of_lt h)]
        exact ⟨1, _, rfl, [], rfl, by dsimp only; rw [List.length_nil]; omega⟩
  | some newItems =>
      have hnew := realloc_length hrealloc hfits
      rw [if_neg fun h => Bool.false_ne_true h.1, Option.getD_some]
      split_ifs with hshort
      · have hroom : (entries.take newCapacity).length +
            (newCapacity - (entries.take newCapacity).length) ≤ newItems.length := by omega
        obtain ⟨cleared, hclear⟩ := clearNew_defined hroom
          (Nat.lt_of_le_of_lt (Nat.mul_le_mul_left _ (Nat.sub_le _ _)) hfits)
        refine ⟨1, _, by rw [hclear, Option.map_some], cleared, rfl, ?_⟩
        exact (clearNew_some hclear).2.1.trans hnew
      · exact ⟨1, _, rfl, newItems, rfl, hnew⟩

/-- **A call whose byte counts do not wrap is defined.** -/
theorem Holds.listStep_defined (hlist : Holds list entries slots) (hwhole : Whole list)
    {op : ListOp code} (hsizes : SizesFit list op) :
    ∃ out list', listStep list op = some (out, list') ∧ Whole list' := by
  cases op with
  | append name data alloc =>
      obtain ⟨ret, list', happend, hlist', -⟩ :=
        hlist.append_defined hwhole hsizes name data alloc
      exact ⟨.ret ret, list', by rw [listStep, happend, Option.map_some], hlist'⟩
  | insert index name data alloc =>
      obtain ⟨ret, list', hinsert, hlist'⟩ := hlist.insert_defined hwhole hsizes name data alloc
      exact ⟨.ret ret, list', by rw [listStep, hinsert, Option.map_some], hlist'⟩
  | remove index =>
      obtain ⟨ret, list', hremove, hlist'⟩ := hlist.remove_defined hwhole index
      exact ⟨.ret ret, list', by rw [listStep, hremove, Option.map_some], hlist'⟩
  | clear =>
      obtain ⟨list', hclear, hlist'⟩ := hlist.clear_defined hwhole
      exact ⟨.done, list', by rw [listStep, hclear, Option.map_some], hlist'⟩
  | resize newCapacity alloc =>
      obtain ⟨ret, list', hresize, hlist'⟩ := hlist.resize_defined hwhole hsizes alloc
      exact ⟨.ret ret, list', by rw [listStep, hresize, Option.map_some], hlist'⟩
  | get index =>
      exact ⟨_, list, by rw [listStep, hlist.get_eq, Option.map_some], hwhole⟩
  | size => exact ⟨_, list, rfl, hwhole⟩
  | find text =>
      have hroom : 0 + list.count ≤ list.capacity := by
        rw [Nat.zero_add, hlist.count_eq]
        exact hlist.count_le
      obtain ⟨index, hfind⟩ := hwhole.findFrom text hroom
      exact ⟨_, list, by rw [listStep, find, hfind, Option.map_some], hwhole⟩

/-- `string_list_create`. -/
theorem create_defined {initialCapacity : ℕ}
    (hmay : MayGrow (⟨0, 0, some []⟩ : code.Items) initialCapacity) (alloc : Alloc code.Slot) :
    ∃ created, code.create initialCapacity alloc = some created ∧
      ∀ list, created = some list → Whole list ∧ initialCapacity ≤ list.capacity := by
  rw [create]
  split_ifs with hmalloc hpos
  · obtain ⟨ret, grown, hensure, hgrown, -, -, hroom⟩ := whole_empty.ensureCapacity hmay alloc
    refine ⟨_, by rw [hensure, Option.map_some], fun list hlist => ?_⟩
    split_ifs at hlist with hret
    obtain rfl := Option.some.inj hlist
    exact ⟨hgrown, hroom hret⟩
  · refine ⟨_, rfl, fun list hlist => ?_⟩
    obtain rfl := Option.some.inj hlist
    exact ⟨whole_empty, Nat.le_of_not_lt hpos⟩
  · exact ⟨none, rfl, fun _ hlist => by cases hlist⟩

end Calls

end ListCode

end BasC
