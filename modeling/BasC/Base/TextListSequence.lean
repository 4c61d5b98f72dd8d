/-
# Lists of strings as sequences

What sorting, removing duplicates and joining do to the sequence of a list: sorting
rearranges it, removing duplicates keeps the first of each run of equal strings in the
sorted sequence, and joining puts the separator between the strings.
-/

import BasC.Base.TextList

namespace BasC

namespace ListCode

variable {code : ListCode}

/-- The item of a slot. -/
def entryOf (slot : code.Slot) : Option code.Entry := slot.name.map fun name => (name, slot.data)

/-- A permutation of the slots of items consists of the slots of items. -/
theorem exists_entries_of_perm {slots : List code.Slot} {entries : List code.Entry}
    (hperm : slots.Perm (entries.map slotOf)) :
    ∃ sorted : List code.Entry, sorted.Perm entries ∧ slots = sorted.map slotOf := by
  have hentry : ∀ entry : code.Entry, entryOf (slotOf entry) = some entry := fun _ => rfl
  have hslots : ∀ slot ∈ slots, ∃ entry, slot = slotOf entry := by
    intro slot hslot
    obtain ⟨entry, -, rfl⟩ := List.mem_map.mp (hperm.mem_iff.mp hslot)
    exact ⟨entry, rfl⟩
  refine ⟨slots.filterMap entryOf, ?_, ?_⟩
  · have hfiltered := hperm.filterMap entryOf
    rwa [List.filterMap_map, show entryOf ∘ slotOf = some from funext hentry,
      List.filterMap_some] at hfiltered
  · clear hperm
    induction slots with
    | nil => rfl
    | cons slot slots ih =>
        obtain ⟨entry, rfl⟩ := hslots slot List.mem_cons_self
        rw [List.filterMap_cons_some (hentry entry), List.map_cons,
          ← ih fun slot hslot => hslots slot (List.mem_cons_of_mem _ hslot)]

/-- The strings do not decrease. -/
def Sorted (entries : List code.Entry) : Prop :=
  entries.Pairwise fun a b => code.compare a.1 b.1 ≤ 0

/-- Sorting rearranges the slots in use. -/
theorem sort_behind (capacity : ℕ) (entries : List code.Entry) (behind : List code.Slot)
    (sorter : code.SlotSorter) :
    ∃ sorted : List code.Entry, sorted.Perm entries ∧ Sorted sorted ∧
      code.sort ⟨entries.length, capacity, some (entries.map slotOf ++ behind)⟩ sorter =
        some ⟨sorted.length, capacity, some (sorted.map slotOf ++ behind)⟩ := by
  rw [sort]
  split_ifs with hempty
  · obtain rfl := List.eq_nil_of_length_eq_zero hempty
    exact ⟨[], .refl _, .nil, rfl⟩
  · obtain ⟨sorted, hperm, hslots⟩ := exists_entries_of_perm (sorter.perm (entries.map slotOf))
    have hsorted := sorter.sorted (entries.map slotOf)
    rw [hslots, List.pairwise_map] at hsorted
    have hle : entries.length ≤ (entries.map slotOf ++ behind).length := by
      rw [List.length_append, List.length_map]
      exact Nat.le_add_right _ _
    refine ⟨sorted, hperm, hsorted, ?_⟩
    rw [Option.bind_some, if_pos hle, List.take_left' (List.length_map _),
      List.drop_left' (List.length_map _), hslots, hperm.length_eq]

/-- **`string_list_sort`** leaves the same items, sorted. -/
theorem sort_eq {entries : List code.Entry} {list : code.Items}
    (hlist : Represents list entries) (sorter : code.SlotSorter) :
    ∃ sorted list', code.sort list sorter = some list' ∧ Represents list' sorted ∧
      sorted.Perm entries ∧ Sorted sorted := by
  obtain ⟨free, rfl, hfits⟩ := hlist
  obtain ⟨sorted, hperm, hsorted, hsort⟩ := sort_behind (entries.length + free) entries
    (List.replicate free code.null) sorter
  refine ⟨sorted, listOf sorted free, ?_, ⟨free, rfl, by rwa [hperm.length_eq]⟩, hperm, hsorted⟩
  rw [listOf, slotsOf, hsort, listOf, slotsOf, hperm.length_eq]

end ListCode

namespace TextCode

variable {t : TextCode}

/-- A missing string goes behind any other. -/
theorem missing_last (a : t.list.Slot) (data : PUnit) :
    t.list.compareSlots a ⟨none, data⟩ ≤ 0 := by
  match a with
  | ⟨none, _⟩ => exact Int.le_refl 0
  | ⟨some _, _⟩ => exact Int.neg_nonpos_of_nonneg Int.one_nonneg

theorem compareSlots_total (a b : t.list.Slot) :
    t.list.compareSlots a b ≤ 0 ∨ t.list.compareSlots b a ≤ 0 := by
  match a, b with
  | ⟨_, _⟩, ⟨none, _⟩ => exact .inl (missing_last _ _)
  | ⟨none, _⟩, ⟨some _, _⟩ => exact .inr (missing_last _ _)
  | ⟨some a, _⟩, ⟨some b, _⟩ => exact compareUnits_total t.value a b

theorem compareSlots_trans {a b c : t.list.Slot} (hab : t.list.compareSlots a b ≤ 0)
    (hbc : t.list.compareSlots b c ≤ 0) : t.list.compareSlots a c ≤ 0 := by
  match a, b, c with
  | ⟨_, _⟩, _, ⟨none, _⟩ => exact missing_last _ _
  | _, ⟨none, _⟩, ⟨some _, _⟩ => exact absurd hbc (Int.not_le.mpr Int.one_pos)
  | ⟨none, _⟩, ⟨some _, _⟩, _ => exact absurd hab (Int.not_le.mpr Int.one_pos)
  | ⟨some _, _⟩, ⟨some _, _⟩, ⟨some _, _⟩ => exact compareUnits_trans hab hbc

/-- A sort that `qsort` may do. -/
def mergeSorter (t : TextCode) : t.list.SlotSorter where
  sort slots := slots.mergeSort fun a b => decide (t.list.compareSlots a b ≤ 0)
  perm slots := List.mergeSort_perm slots _
  sorted slots := by
    have htrans : ∀ a b c : t.list.Slot, decide (t.list.compareSlots a b ≤ 0) →
        decide (t.list.compareSlots b c ≤ 0) → decide (t.list.compareSlots a c ≤ 0) := by
      simpa only [decide_eq_true_eq] using fun _ _ _ => compareSlots_trans
    have htotal : ∀ a b : t.list.Slot, decide (t.list.compareSlots a b ≤ 0) ||
        decide (t.list.compareSlots b a ≤ 0) := by
      simpa only [Bool.or_eq_true, decide_eq_true_eq] using compareSlots_total
    exact (List.pairwise_mergeSort htrans htotal slots).imp of_decide_eq_true

end TextCode

namespace ListCode

variable {code : ListCode}

/-- An item differs from the one in front of it. -/
def Differ (a b : code.Entry) : Prop := code.compare b.1 a.1 ≠ 0

instance : DecidableRel (Differ : code.Entry → code.Entry → Prop) :=
  fun a b => inferInstanceAs (Decidable (code.compare b.1 a.1 ≠ 0))

/-- The list in the middle of the loop: the items that are kept, the gap that has opened
behind them, and the items that are still to be looked at. -/
def gapped (count capacity : ℕ) (kept : List code.Entry) (gap : ℕ) (rest : List code.Entry)
    (after : List code.Slot) : code.Items :=
  ⟨count, capacity,
    some (kept.map slotOf ++ (List.replicate gap code.null ++ (rest.map slotOf ++ after)))⟩

section Gapped

variable (count capacity : ℕ) (init : List code.Entry) (last entry : code.Entry) (gap : ℕ)
  (rest : List code.Entry) (after : List code.Slot)

theorem load_gapped :
    code.load (gapped count capacity init gap (entry :: rest) after) (init.length + gap) =
      some (slotOf entry) := by
  have hload := load_eq count capacity (init.map slotOf ++ List.replicate gap code.null)
    (rest.map slotOf ++ after) (slotOf entry)
  simpa [gapped] using hload

theorem load_last :
    code.load (gapped count capacity (init ++ [last]) gap rest after) init.length =
      some (slotOf last) := by
  have hload := load_eq count capacity (init.map slotOf)
    (List.replicate gap code.null ++ (rest.map slotOf ++ after)) (slotOf last)
  simpa [gapped] using hload

/-- The test of the loop compares with the last item kept. -/
theorem isKept_gapped :
    code.isKept (gapped count capacity (init ++ [last]) gap (entry :: rest) after)
      ((init ++ [last]).length + gap) (init ++ [last]).length =
      some (decide (Differ last entry)) := by
  have hnext := load_gapped count capacity (init ++ [last]) entry gap rest after
  have hlast := load_last count capacity init last gap (entry :: rest) after
  have hlength : (init ++ [last]).length = init.length + 1 := by simp
  rw [isKept, if_neg (by omega), hnext, Option.bind_some]
  simp only [slotOf, hlength, Nat.add_sub_cancel, hlast, Option.map_some]
  rfl

/-- Clearing the slot of an item widens the gap. -/
theorem store_null_gapped :
    code.store (gapped count capacity init gap (entry :: rest) after) (init.length + gap)
        code.null =
      some (gapped count capacity init (gap + 1) rest after) := by
  have hstore := store_eq count capacity (init.map slotOf ++ List.replicate gap code.null)
    (rest.map slotOf ++ after) (slotOf entry) code.null
  simpa [gapped, List.replicate_succ'] using hstore

/-- Moving an item across the gap. -/
theorem store_moved_gapped :
    ((code.store (gapped count capacity init (gap + 1) (entry :: rest) after) init.length
        (slotOf entry)).bind fun moved =>
      code.store moved (init.length + (gap + 1)) code.null) =
      some (gapped count capacity (init ++ [entry]) (gap + 1) rest after) := by
  have hmove : code.store (gapped count capacity init (gap + 1) (entry :: rest) after)
      init.length (slotOf entry) =
      some (gapped count capacity (init ++ [entry]) gap (entry :: rest) after) := by
    have hstore := store_eq count capacity (init.map slotOf)
      (List.replicate gap code.null ++ (slotOf entry :: (rest.map slotOf ++ after))) code.null
      (slotOf entry)
    simpa [gapped, List.replicate_succ] using hstore
  have hclear := store_null_gapped count capacity (init ++ [entry]) entry gap rest after
  have hindex : (init ++ [entry]).length + gap = init.length + (gap + 1) := by
    simp only [List.length_append, List.length_singleton]
    omega
  rw [hmove, Option.bind_some, ← hindex, hclear]

/-- With a gap the slot that an item is moved to is a null slot. -/
theorem load_gap :
    code.load (gapped count capacity init (gap + 1) rest after) init.length =
      some code.null := by
  have hload := load_eq count capacity (init.map slotOf)
    (List.replicate gap code.null ++ (rest.map slotOf ++ after)) code.null
  simpa [gapped, List.replicate_succ] using hload

/-- Without a gap an item that is kept stays where it is. -/
theorem gapped_zero :
    gapped count capacity init 0 (entry :: rest) after =
      gapped count capacity (init ++ [entry]) 0 rest after := by
  simp [gapped]

end Gapped

/-- **The loop of `string_list_unique`** keeps the first item of each run of equal strings, and
frees the strings of the others. -/
theorem uniqueFrom_eq (count capacity : ℕ) (init : List code.Entry) (last : code.Entry)
    (gap : ℕ) (rest : List code.Entry) (after : List code.Slot) :
    ∃ freed : List code.Entry, ∃ gap', code.uniqueFrom rest.length ((init ++ [last]).length + gap)
        (init ++ [last]).length (gapped count capacity (init ++ [last]) gap rest after) =
      some (freed.map slotOf, (init ++ rest.destutter' Differ last).length,
        gapped count capacity (init ++ rest.destutter' Differ last) gap' [] after) ∧
      (freed ++ rest.destutter' Differ last).Perm (last :: rest) ∧
      (init ++ rest.destutter' Differ last).length + gap' =
        (init ++ [last]).length + gap + rest.length := by
  induction rest generalizing init last gap with
  | nil => exact ⟨[], gap, rfl, .refl _, rfl⟩
  | cons entry rest ih =>
      rw [List.length_cons, uniqueFrom, isKept_gapped, Option.bind_some]
      by_cases hdiffer : Differ last entry
      · have hkeep := ih (init ++ [last]) entry gap
        have hindex : (init ++ [last]).length + gap + 1 =
            (init ++ [last] ++ [entry]).length + gap := by
          simp only [List.length_append, List.length_singleton]
          omega
        have hresult : init ++ [last] ++ rest.destutter' Differ entry =
            init ++ (entry :: rest).destutter' Differ last := by
          rw [List.destutter'_cons_pos _ hdiffer, List.append_assoc, List.singleton_append]
        rw [hresult] at hkeep
        obtain ⟨freed, gap', hloop, hperm, hlength⟩ := hkeep
        have hperm' : (freed ++ (entry :: rest).destutter' Differ last).Perm
            (last :: entry :: rest) := by
          rw [List.destutter'_cons_pos _ hdiffer]
          exact List.perm_middle.trans (hperm.cons last)
        simp only [hdiffer, decide_true, if_true]
        cases gap with
        | zero =>
            refine ⟨freed, gap', ?_, hperm', by rw [hlength]; simp; omega⟩
            rw [if_pos (Nat.add_zero _).symm, hindex, gapped_zero]
            exact hloop
        | succ gap =>
            refine ⟨freed, gap', ?_, hperm', by rw [hlength]; simp; omega⟩
            have hnext : (init ++ [last] ++ [entry]).length = (init ++ [last]).length + 1 := by
              simp
            rw [if_neg (by omega), load_gap, Option.bind_some, load_gapped, Option.bind_some,
              ← Option.bind_assoc, store_moved_gapped, Option.bind_some, hindex, ← hnext, hloop]
            rfl
      · obtain ⟨freed, gap', hloop, hperm, hlength⟩ := ih init last (gap + 1)
        simp only [hdiffer, decide_false, Bool.false_eq_true, if_false]
        rw [List.destutter'_cons_neg _ hdiffer, load_gapped, Option.bind_some, store_null_gapped,
          Option.bind_some, Nat.add_assoc, hloop]
        exact ⟨entry :: freed, gap', rfl, (hperm.cons entry).trans (.swap last entry rest),
          by rw [hlength]; omega⟩

/-- A list of at most one item is sorted, and has no duplicates. -/
theorem sorted_of_length_le_one {entries : List code.Entry} (hshort : entries.length ≤ 1) :
    Sorted entries ∧ entries.destutter Differ = entries := by
  match entries, hshort with
  | [], _ => exact ⟨.nil, rfl⟩
  | [entry], _ => exact ⟨List.pairwise_singleton _ entry, rfl⟩

/-- Removing duplicates leaves null slots where the other items were. -/
theorem frees_behind (capacity : ℕ) (entries : List code.Entry) (behind : List code.Slot)
    (sorter : code.SlotSorter) :
    ∃ freed sorted : List code.Entry, ∃ gap, sorted.Perm entries ∧ Sorted sorted ∧
      (freed ++ sorted.destutter Differ).Perm entries ∧
      (sorted.destutter Differ).length + gap = entries.length ∧
      code.frees ⟨entries.length, capacity, some (entries.map slotOf ++ behind)⟩ sorter =
        some (freed.map slotOf, ⟨(sorted.destutter Differ).length, capacity,
          some ((sorted.destutter Differ).map slotOf ++
            (List.replicate gap code.null ++ behind))⟩) := by
  rw [frees]
  split_ifs with hshort
  · obtain ⟨hsorted, hself⟩ := sorted_of_length_le_one hshort
    refine ⟨[], entries, 0, .refl _, hsorted, ?_, by rw [hself, Nat.add_zero], by rw [hself]; rfl⟩
    rw [hself, List.nil_append]
  · obtain ⟨sorted, hperm, hsorted, hsort⟩ := sort_behind capacity entries behind sorter
    have hlength := hperm.length_eq
    cases sorted with
    | nil => exact absurd (Nat.zero_le 1) (by rwa [← hlength] at hshort)
    | cons first rest =>
        obtain ⟨freed, gap, hloop, hfreed, hgap⟩ :=
          uniqueFrom_eq (rest.length + 1) capacity [] first 0 rest behind
        have hsum : (rest.destutter' Differ first).length + gap = 1 + rest.length := hgap
        refine ⟨freed, first :: rest, gap, hperm, hsorted, hfreed.trans hperm, ?_, ?_⟩
        · rw [List.destutter_cons', ← hlength, List.length_cons, hsum, Nat.add_comm]
        · rw [hsort, Option.bind_some, List.length_cons, uniqueFrom]
          simp only [isKept, if_true, Option.bind_some]
          rw [show code.uniqueFrom rest.length (0 + 1) (0 + 1) ⟨rest.length + 1, capacity,
            some ((first :: rest).map slotOf ++ behind)⟩ = _ from hloop]
          rfl

theorem unique_of_frees {list list' : code.Items} {sorter : code.SlotSorter}
    {freed : List code.Slot} (hfrees : code.frees list sorter = some (freed, list')) :
    code.unique list sorter = some (freed.filterMap fun slot => slot.name, list') := by
  rw [unique, hfrees, Option.map_some]

/-- **`string_list_unique`** keeps one item of each run of equal strings in a sorted
permutation of the items. -/
theorem unique_eq {entries : List code.Entry} {list : code.Items}
    (hlist : Represents list entries) (sorter : code.SlotSorter) :
    ∃ freed sorted list', code.unique list sorter = some (freed, list') ∧
      Represents list' (sorted.destutter Differ) ∧ sorted.Perm entries ∧ Sorted sorted := by
  obtain ⟨free, rfl, hfits⟩ := hlist
  obtain ⟨freed, sorted, gap, hperm, hsorted, -, hgap, hfrees⟩ := frees_behind
    (entries.length + free) entries (List.replicate free code.null) sorter
  rw [← hgap, Nat.add_assoc] at hfits
  refine ⟨(freed.map slotOf).filterMap fun slot => slot.name, sorted,
    listOf (sorted.destutter Differ) (gap + free), (unique_of_frees hfrees).trans ?_,
    ⟨gap + free, rfl, hfits⟩, hperm, hsorted⟩
  rw [listOf, slotsOf, List.replicate_append_replicate, ← hgap, Nat.add_assoc]

theorem loadNames_eq (count capacity : ℕ) (before : List code.Slot) (entries : List code.Entry)
    (after : List code.Slot) :
    code.loadNames entries.length before.length
        ⟨count, capacity, some (before ++ (entries.map slotOf ++ after))⟩ =
      some (entries.map fun entry => some entry.1) := by
  induction entries generalizing before with
  | nil => rfl
  | cons entry entries ih =>
      have hload := load_eq count capacity before (entries.map slotOf ++ after) (slotOf entry)
      have hrest := ih (before ++ [slotOf entry])
      simp only [List.append_assoc, List.singleton_append, List.length_append,
        List.length_singleton] at hrest
      rw [List.length_cons, loadNames, List.map_cons, List.cons_append, hload, Option.bind_some,
        hrest]
      rfl

/-- The strings of a list are those of its items. -/
theorem names_eq {entries : List code.Entry} {list : code.Items}
    (hlist : Represents list entries) :
    code.names list = some (entries.map fun entry => some entry.1) := by
  obtain ⟨free, rfl, -⟩ := hlist
  exact loadNames_eq entries.length (entries.length + free) [] entries
    (List.replicate free code.null)

end ListCode

namespace TextCode

open ListCode

variable {t : TextCode}

theorem joinRest_cons (separator text : List t.Unit) (names : List (List t.Unit)) :
    t.joinRest separator ((text :: names).map some) =
      separator ++ text ++ t.joinRest separator (names.map some) := rfl

theorem names_eq_map_some (entries : List t.list.Entry) :
    (entries.map fun entry => some entry.1) = (entries.map Prod.fst).map some := by
  rw [List.map_map]
  rfl

/-- Without missing strings, a join puts the separator between all of them. -/
theorem joinNames_eq (separator : List t.Unit) (names : List (List t.Unit)) :
    t.joinNames separator (names.map some) = separator.intercalate names := by
  cases names with
  | nil => rfl
  | cons text names =>
      show text ++ t.joinRest separator (names.map some) = separator.intercalate (text :: names)
      induction names generalizing text with
      | nil => simp [joinRest]
      | cons next names ih =>
          rw [joinRest_cons, List.intercalate_cons_cons, ← ih next]
          simp only [List.append_assoc]

/-- The units that are counted are those that are written. -/
theorem length_joinNames (separator : List t.Unit) (names : List (List t.Unit)) :
    (t.joinNames separator (names.map some)).length + 1 =
      t.unitCount (names.map some) separator := by
  have hrest : ∀ names : List (List t.Unit),
      (t.joinRest separator (names.map some)).length =
        ((names.map some).map fun name => (name.getD []).length).sum +
          separator.length * names.length := by
    intro names
    induction names with
    | nil => rfl
    | cons text names ih =>
        rw [joinRest_cons, List.length_append, List.length_append, ih, List.map_cons,
          List.map_cons, List.sum_cons, List.length_cons, Nat.mul_succ, Option.getD_some]
        omega
  cases names with
  | nil => rfl
  | cons text names =>
      rw [List.map_cons, joinNames, List.length_append, hrest, unitCount, List.map_cons,
        List.sum_cons, List.length_cons, List.length_map, Nat.add_sub_cancel]
      omega

/-- The bytes of the joined string do not wrap. -/
def JoinFits (list : t.list.Items) (separator : Option (List t.Unit)) : Prop :=
  ∀ names, t.list.names list = some names →
    t.unitCount names (separator.getD []) * t.unitSize < sizeMod

/-- **`string_list_join`** puts the separator between the strings. -/
theorem join_eq {entries : List t.list.Entry} {list : t.list.Items}
    (hlist : Represents list entries) {separator : Option (List t.Unit)}
    {alloc : Alloc t.list.Slot} (hmalloc : alloc.malloc = true)
    (hfits : JoinFits list separator) :
    t.join list separator alloc =
      some (some ((separator.getD []).intercalate (entries.map Prod.fst))) := by
  have hnames := names_eq hlist
  rw [names_eq_map_some] at hnames
  have hbytes := hfits _ hnames
  have hcount : list.count = entries.length := by
    obtain ⟨free, rfl, -⟩ := hlist
    rfl
  rw [join, hcount]
  split_ifs with hempty
  · obtain rfl := List.eq_nil_of_length_eq_zero hempty
    rfl
  · have hunits := Nat.lt_of_le_of_lt (Nat.le_mul_of_pos_right _ t.unitSize_pos) hbytes
    rw [hnames, Option.bind_some]
    dsimp only
    rw [Nat.mod_eq_of_lt hunits, Nat.mod_eq_of_lt hbytes, length_joinNames,
      if_pos (Nat.le_refl _), joinNames_eq]

end TextCode

end BasC
