/-
# Removing duplicates

`string_list_unique` works in its array: it sorts the items, moves the first of each run of equal
strings to the front and frees the others. With a number for each string, it can be said which
of two equal strings is freed. What it leaves is right exactly if there was nothing behind the
items before.
-/

import BasC.Base.ItemListStates

namespace BasC

open ListCode

namespace TextCode

variable {t : TextCode}

/-- The list module of the file, with a number beside each string, by which it is known: the
place of its memory. -/
abbrev numbered (t : TextCode) : ListCode where
  Text := List t.Unit
  Data := ℕ
  itemSize := t.list.itemSize
  clearsByLoop := t.clearsByLoop
  zero := 0
  compare := t.list.compare
  two_le_itemSize := t.list.two_le_itemSize
  compare_eq_zero_iff := t.list.compare_eq_zero_iff

/-- A string that a call adds is in new memory. -/
def Fresh (list : t.numbered.Items) (op : ListOp t.numbered) : Prop :=
  ∀ entry, op.added = some entry → ∀ index slot, index < list.count →
    t.numbered.load list index = some slot → slot.data ≠ entry.2

/-- The numbers of the strings are different. -/
def Numbered (entries : List t.numbered.Entry) : Prop := (entries.map Prod.snd).Nodup

theorem Numbered.subperm {entries entries' : List t.numbered.Entry}
    (hsub : entries'.Subperm entries)
    (hnumbered : Numbered entries) : Numbered entries' := by
  obtain ⟨middle, hperm, hsub⟩ := hsub
  exact (hperm.map _).nodup_iff.mp (hnumbered.sublist (hsub.map _))

theorem Numbered.add {list : t.numbered.Items} {entries : List t.numbered.Entry}
    {slots : List t.numbered.Slot} {op : ListOp t.numbered} {entry : t.numbered.Entry}
    (hlist : ListCode.Holds list entries slots) (hnumbered : Numbered entries)
    (hfresh : Fresh list op)
    (hadded : op.added = some entry) : Numbered (entry :: entries) := by
  refine List.nodup_cons.mpr ⟨fun hmem => ?_, hnumbered⟩
  obtain ⟨other, hother, hsame⟩ := List.mem_map.mp hmem
  obtain ⟨before, after, rfl⟩ := List.append_of_mem hother
  have hcount : before.length < list.count := by
    rw [hlist.count_eq, List.length_append, List.length_cons]
    omega
  exact hfresh entry hadded before.length _ hcount hlist.load hsame

/-- The strings of a list that calls lead to have different numbers. -/
theorem holds_numbered {list : t.numbered.Items} (hreach : ListReach Fresh list) :
    list.items = none ∨ ∃ entries slots, ListCode.Holds list entries slots ∧ Numbered entries :=
  hreach.holds List.nodup_nil (fun _ _ => Numbered.subperm) fun _ _ _ _ _ => Numbered.add

theorem compareUnits_lt_of_lt_of_le {κ : Type} {value : κ → ℕ} {a b c : List κ}
    (hab : compareUnits value a b < 0) (hbc : compareUnits value b c ≤ 0) :
    compareUnits value a c < 0 := by
  by_contra hac
  have hca : compareUnits value c a ≤ 0 := by
    rw [compareUnits_swap value a c]
    omega
  have hba := compareUnits_trans hbc hca
  rw [compareUnits_swap value a b] at hba
  omega

/-- The first of each run of equal strings in a sorted sequence: the strings increase. -/
theorem increasing_destutter' {first : t.numbered.Entry} {rest : List t.numbered.Entry}
    (hsorted : Sorted (first :: rest)) :
    (rest.destutter' Differ first).Pairwise fun a b => compareUnits t.value a.1 b.1 < 0 := by
  induction rest generalizing first with
  | nil => exact List.pairwise_singleton _ first
  | cons next rest ih =>
      obtain ⟨hfirst, hrest⟩ := List.pairwise_cons.mp hsorted
      by_cases hdiffer : Differ first next
      · rw [List.destutter'_cons_pos _ hdiffer]
        refine List.pairwise_cons.mpr ⟨fun other hother => ?_, ih hrest⟩
        have hnext : compareUnits t.value first.1 next.1 < 0 := by
          have hle : compareUnits t.value first.1 next.1 ≤ 0 := hfirst next List.mem_cons_self
          have hne : compareUnits t.value next.1 first.1 ≠ 0 := hdiffer
          rw [compareUnits_swap t.value first.1 next.1] at hne
          omega
        have hmem := (List.destutter'_sublist rest Differ next).subset hother
        rcases List.mem_cons.mp hmem with rfl | hlater
        · exact hnext
        · exact compareUnits_lt_of_lt_of_le hnext ((List.pairwise_cons.mp hrest).1 other hlater)
      · rw [List.destutter'_cons_neg _ hdiffer]
        exact ih (hsorted.sublist ((List.sublist_cons_self next rest).cons_cons first))

theorem increasing_destutter {sorted : List t.numbered.Entry} (hsorted : Sorted sorted) :
    (sorted.destutter Differ).Pairwise fun a b => compareUnits t.value a.1 b.1 < 0 := by
  cases sorted with
  | nil => exact .nil
  | cons first rest => exact increasing_destutter' hsorted

/-- No string is lost. -/
theorem string_mem_destutter' {entry first : t.numbered.Entry} {rest : List t.numbered.Entry}
    (hmem : entry ∈ first :: rest) :
    entry.1 ∈ (rest.destutter' Differ first).map Prod.fst := by
  induction rest generalizing first with
  | nil =>
      obtain rfl := List.mem_singleton.mp hmem
      exact List.mem_singleton_self _
  | cons next rest ih =>
      by_cases hdiffer : Differ first next
      · rw [List.destutter'_cons_pos _ hdiffer, List.map_cons]
        rcases List.mem_cons.mp hmem with rfl | hrest
        · exact List.mem_cons_self
        · exact List.mem_cons_of_mem _ (ih hrest)
      · rw [List.destutter'_cons_neg _ hdiffer]
        rcases List.mem_cons.mp hmem with rfl | hrest
        · exact ih List.mem_cons_self
        · rcases List.mem_cons.mp hrest with rfl | hlater
          · have hsame : entry.1 = first.1 :=
              (t.numbered.compare_eq_zero_iff _ _).mp (not_not.mp hdiffer)
            rw [hsame]
            exact List.mem_map_of_mem (List.mem_destutter' rest Differ first)
          · exact ih (List.mem_cons_of_mem _ hlater)

theorem mem_destutter_iff (sorted : List t.numbered.Entry) (text : List t.Unit) :
    text ∈ (sorted.destutter Differ).map Prod.fst ↔ text ∈ sorted.map Prod.fst := by
  constructor
  · intro hmem
    exact ((List.destutter_sublist Differ sorted).map _).subset hmem
  · intro hmem
    obtain ⟨entry, hentry, rfl⟩ := List.mem_map.mp hmem
    cases sorted with
    | nil => cases hentry
    | cons first rest => exact string_mem_destutter' hentry

/-- The items of the list. -/
def ItemsAre (list : t.numbered.Items) (entries : List t.numbered.Entry) : Prop :=
  list.count = entries.length ∧ ∀ index, index < list.count →
    t.numbered.load list index = entries[index]?.map slotOf

/-- Every slot from the count up to the capacity is null. -/
def NullBehind (list : t.numbered.Items) : Prop :=
  ∀ index, list.count ≤ index → index < list.capacity →
    t.numbered.load list index = some t.numbered.null

/-- The array has strings in front and null slots behind. -/
def Clean (list : t.numbered.Items) : Prop := (∃ entries, ItemsAre list entries) ∧ NullBehind list

/-- **`string_list_unique` keeps one of each string.** The strings that are left increase, they
are the same set, nothing is behind them, and each string of the list is left or freed, once. -/
def RemovesDuplicates (list : t.numbered.Items) (sorter : t.numbered.SlotSorter) : Prop :=
  ∃ entries kept freed list', t.numbered.frees list sorter = some (freed.map slotOf, list') ∧
    ItemsAre list entries ∧ ItemsAre list' kept ∧
    (kept.Pairwise fun a b => compareUnits t.value a.1 b.1 < 0) ∧
    (∀ text, text ∈ kept.map Prod.fst ↔ text ∈ entries.map Prod.fst) ∧ NullBehind list' ∧
    (freed ++ kept).Perm entries ∧ Numbered (freed ++ kept)

theorem itemsAre_front (capacity : ℕ) (entries : List t.numbered.Entry)
    (behind : List t.numbered.Slot) :
    ItemsAre ⟨entries.length, capacity, some (entries.map slotOf ++ behind)⟩ entries := by
  refine ⟨rfl, fun index hindex => ?_⟩
  have hslot : index < (entries.map slotOf).length := by rwa [List.length_map]
  rw [load, Option.bind_some, List.getElem?_append_left hslot, List.getElem?_map]

theorem nullBehind_iff (count capacity : ℕ) {front behind : List t.numbered.Slot}
    (hfront : front.length = count) :
    NullBehind ⟨count, capacity, some (front ++ behind)⟩ ↔
      ∀ i, count + i < capacity → behind[i]? = some t.numbered.null := by
  subst hfront
  constructor
  · intro hnull i hi
    have hslot := hnull (front.length + i) (Nat.le_add_right _ _) hi
    rwa [load, Option.bind_some, List.getElem?_append_right (Nat.le_add_right _ _),
      Nat.add_sub_cancel_left] at hslot
  · intro hnull index hle hlt
    rw [load, Option.bind_some, List.getElem?_append_right hle]
    exact hnull _ (by rwa [Nat.add_sub_of_le hle])

/-- Null slots in front of what is behind. -/
theorem nullBehind_gap (capacity : ℕ) {entries kept : List t.numbered.Entry}
    (behind : List t.numbered.Slot) {gap : ℕ} (hgap : kept.length + gap = entries.length) :
    NullBehind (⟨kept.length, capacity, some (kept.map slotOf ++
        (List.replicate gap t.numbered.null ++ behind))⟩ : t.numbered.Items) ↔
      NullBehind (⟨entries.length, capacity, some (entries.map slotOf ++ behind)⟩ :
        t.numbered.Items) := by
  rw [nullBehind_iff _ _ (List.length_map _), nullBehind_iff _ _ (List.length_map _)]
  have hlength : (List.replicate gap t.numbered.null).length = gap := List.length_replicate
  constructor
  · intro hnull i hi
    have hslot := hnull (gap + i) (by omega)
    rwa [List.getElem?_append_right (by omega), hlength, Nat.add_sub_cancel_left] at hslot
  · intro hnull i hi
    by_cases hin : i < gap
    · rw [List.getElem?_append_left (by omega), List.getElem?_replicate, if_pos hin]
    · rw [List.getElem?_append_right (by omega), hlength]
      exact hnull _ (by omega)

/-- Without an array there is nothing to do. -/
theorem removesDuplicates_gone {list : t.numbered.Items} (hgone : list.items = none)
    (sorter : t.numbered.SlotSorter) : RemovesDuplicates list sorter ↔ Clean list := by
  constructor
  · rintro ⟨entries, _, _, list', hfrees, hentries, -, -, -, hnull, -, -⟩
    obtain rfl := unique_gone hgone (unique_of_frees hfrees)
    exact ⟨⟨entries, hentries⟩, hnull⟩
  · rintro ⟨⟨entries, hcount, hload⟩, hnull⟩
    have hempty : list.count = 0 := by
      by_contra hne
      have hfirst := hload 0 (Nat.pos_of_ne_zero hne)
      rw [load_gone hgone, List.getElem?_eq_getElem (by omega)] at hfirst
      cases hfirst
    obtain rfl := List.eq_nil_of_length_eq_zero (hcount.symm.trans hempty)
    have hfrees : t.numbered.frees list sorter = some ([], list) := by
      rw [frees, if_pos (by omega)]
    exact ⟨[], [], [], list, hfrees, ⟨hcount, hload⟩, ⟨hcount, hload⟩, .nil, fun _ => .rfl, hnull,
      .nil, List.nodup_nil⟩

/-- **Removing duplicates is right exactly if the array was clean before.** -/
theorem removesDuplicates_iff (t : TextCode) {list : t.numbered.Items}
    (hreach : ListReach Fresh list) (sorter : t.numbered.SlotSorter) :
    RemovesDuplicates list sorter ↔ Clean list := by
  rcases holds_numbered hreach with hgone | ⟨entries, slots, hlist, hnumbered⟩
  · exact removesDuplicates_gone hgone sorter
  · obtain ⟨behind, rfl, hlist'⟩ := hlist.exists_behind
    obtain ⟨freed, sorted, gap, hperm, hsorted, hfreed, hgap, hfrees⟩ :=
      frees_behind list.capacity entries behind sorter
    rw [← hlist'] at hfrees
    have hitems : ItemsAre list entries := by
      rw [hlist']
      exact itemsAre_front _ _ _
    have hnull := nullBehind_gap list.capacity behind hgap
    rw [← hlist'] at hnull
    constructor
    · rintro ⟨_, _, _, list', hout, -, -, -, -, hclean, -, -⟩
      obtain ⟨-, rfl⟩ := Prod.mk.inj (Option.some.inj (hfrees.symm.trans hout))
      exact ⟨⟨entries, hitems⟩, hnull.mp hclean⟩
    · rintro ⟨-, hclean⟩
      refine ⟨entries, _, freed, _, hfrees, hitems, itemsAre_front _ _ _,
        increasing_destutter hsorted, fun text => ?_, hnull.mpr hclean, hfreed, ?_⟩
      · rw [mem_destutter_iff]
        exact (hperm.map _).mem_iff
      · exact hnumbered.subperm hfreed.subperm

/-- The comparison does not see the numbers. -/
theorem compareSlots_numbered (a b : t.numbered.Slot) :
    t.numbered.compareSlots a b = t.list.compareSlots ⟨a.name, ()⟩ ⟨b.name, ()⟩ := by
  match a, b with
  | ⟨none, _⟩, ⟨none, _⟩ => rfl
  | ⟨none, _⟩, ⟨some _, _⟩ => rfl
  | ⟨some _, _⟩, ⟨none, _⟩ => rfl
  | ⟨some _, _⟩, ⟨some _, _⟩ => rfl

/-- A sort that `qsort` may do. -/
def numberedSorter (t : TextCode) : t.numbered.SlotSorter where
  sort slots := slots.mergeSort fun a b => decide (t.numbered.compareSlots a b ≤ 0)
  perm slots := List.mergeSort_perm slots _
  sorted slots := by
    have htrans : ∀ a b c : t.numbered.Slot, decide (t.numbered.compareSlots a b ≤ 0) →
        decide (t.numbered.compareSlots b c ≤ 0) → decide (t.numbered.compareSlots a c ≤ 0) := by
      simpa only [decide_eq_true_eq, compareSlots_numbered] using fun _ _ _ => compareSlots_trans
    have htotal : ∀ a b : t.numbered.Slot, decide (t.numbered.compareSlots a b ≤ 0) ||
        decide (t.numbered.compareSlots b a ≤ 0) := by
      simpa only [Bool.or_eq_true, decide_eq_true_eq, compareSlots_numbered] using
        fun _ _ => compareSlots_total _ _
    exact (List.pairwise_mergeSort htrans htotal slots).imp of_decide_eq_true

end TextCode

open TextCode

/-- Allocations that succeed. -/
def numberedAlloc : Alloc stringText.numbered.Slot :=
  ⟨true, true, true, true, fun _ => stringText.numbered.null⟩

/-- A new list. -/
theorem listReach_new :
    ListReach Fresh (⟨0, 0, some []⟩ : stringText.numbered.Items) :=
  .create (show stringText.numbered.create 0 numberedAlloc = _ from rfl)

/-- A list of two equal strings. -/
def twoStrings : stringText.numbered.Items :=
  listOf [([CChar.star], (1 : ℕ)), ([CChar.star], (2 : ℕ))] 14

theorem listReach_twoStrings : ListReach Fresh twoStrings := by
  have hfirst : listStep (⟨0, 0, some []⟩ : stringText.numbered.Items)
      (ListOp.append [CChar.star] (1 : ℕ) numberedAlloc : ListOp stringText.numbered) =
      some (.ret 1, listOf [([CChar.star], (1 : ℕ))] 15) := rfl
  have hsecond : listStep (listOf [([CChar.star], (1 : ℕ))] 15 : stringText.numbered.Items)
      (ListOp.append [CChar.star] (2 : ℕ) numberedAlloc : ListOp stringText.numbered) =
      some (.ret 1, twoStrings) := rfl
  have hone := listReach_new.call (fun _ _ _ _ hindex => absurd hindex (Nat.not_lt_zero _)) hfirst
  refine hone.call (fun entry hadded index slot hindex hload => ?_) hsecond
  obtain rfl : index = 0 := Nat.lt_one_iff.mp hindex
  obtain rfl := Option.some.inj hadded
  obtain rfl := Option.some.inj hload
  exact (by decide : (1 : ℕ) ≠ 2)

/-- Behind two equal strings there are only null slots, and `string_list_unique` does what it
should. -/
theorem removesDuplicates_iff_twoStrings :
    RemovesDuplicates twoStrings (numberedSorter stringText) ↔ Clean twoStrings :=
  removesDuplicates_iff stringText listReach_twoStrings _

/-- Two equal strings, a resize to one slot for which there is no memory, and then
`string_list_unique`: the slot behind the string that is left has a pointer to the other, which
has been freed. -/
theorem not_removesDuplicates_dangling :
    ∃ list : stringText.numbered.Items, ListReach Fresh list ∧
      ¬ RemovesDuplicates list (numberedSorter stringText) := by
  have hresize : listStep twoStrings
      (ListOp.resize 1 ⟨false, false, false, false, fun _ => stringText.numbered.null⟩ :
        ListOp stringText.numbered) =
      some (.ret 0, { twoStrings with count := 1 }) := rfl
  refine ⟨_, listReach_twoStrings.call (fun _ hadded => by cases hadded) hresize, ?_⟩
  rintro ⟨_, _, _, list', hfrees, -, -, -, -, hnull, -, -⟩
  rw [frees, if_pos (Nat.le_refl 1)] at hfrees
  obtain ⟨-, rfl⟩ := Prod.mk.inj (Option.some.inj hfrees)
  have hslot := hnull 1 (Nat.le_refl 1) (by decide)
  cases hslot

end BasC
