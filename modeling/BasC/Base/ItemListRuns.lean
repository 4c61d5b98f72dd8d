/-
# Programs over growable lists

Any number of lists, made by `string_list_create` and `string_list_copy` and worked on in
any order. A program over them answers as one over sequences does, and after each call
every list has its items in front and null slots behind.
-/

import BasC.Base.ItemListSequence
import BasC.Lib.Refinement

namespace BasC

open Lib

/-- The four modules with a growable list. -/
inductive ListModule
  | string
  | wstring
  | fileent
  | wfileent

def ListModule.code : ListModule → ListCode
  | .string => stringList
  | .wstring => wstringList
  | .fileent => fileentList
  | .wfileent => wfileentList

namespace ListCode

variable {code : ListCode}

/-- A call on one list. -/
inductive ListOp (code : ListCode)
  | append (name : code.Text) (data : code.Data) (alloc : Alloc code.Slot)
  | insert (index : ℕ) (name : code.Text) (data : code.Data) (alloc : Alloc code.Slot)
  | remove (index : ℕ)
  | clear
  | resize (newCapacity : ℕ) (alloc : Alloc code.Slot)
  | get (index : ℕ)
  | size
  | find (text : code.Text)

/-- What it returns. -/
inductive ListOut (code : ListCode)
  | done
  | ret (value : ℤ)
  | item (slot : Option code.Slot)
  | size (count : ℕ)
  | index (value : ℤ)

/-- One call on a list. -/
def listStep (list : code.Items) : ListOp code → Option (ListOut code × code.Items)
  | .append name data alloc => (code.append list name data alloc).map fun r => (.ret r.1, r.2)
  | .insert index name data alloc =>
      (code.insert list index name data alloc).map fun r => (.ret r.1, r.2)
  | .remove index => (code.remove list index).map fun r => (.ret r.1, r.2)
  | .clear => (code.clear list).map fun cleared => (.done, cleared)
  | .resize newCapacity alloc => (code.resize list newCapacity alloc).map fun r => (.ret r.1, r.2)
  | .get index => (code.get list index).map fun slot => (.item slot, list)
  | .size => some (.size (code.size list), list)
  | .find text => (code.find list text).map fun index => (.index index, list)

/-- A call of a program with several lists, which are known by their numbers. -/
inductive StoreOp (code : ListCode)
  | create (initialCapacity : ℕ) (alloc : Alloc code.Slot)
  | copy (handle : ℕ) (alloc : Alloc code.Slot) (allocs : ℕ → Alloc code.Slot)
  | on (handle : ℕ) (op : ListOp code)

/-- The number of a new list, `none` for `NULL`, or what a call on a list returns. -/
inductive StoreOut (code : ListCode)
  | list (handle : Option ℕ)
  | out (out : ListOut code)

/-- Keep a new list, unless it is `NULL`. -/
def keep (lists : List code.Items) : Option code.Items → StoreOut code × List code.Items
  | some list => (.list (some lists.length), lists ++ [list])
  | none => (.list none, lists)

/-- One call. -/
def storeStep (lists : List code.Items) : StoreOp code → Option (StoreOut code × List code.Items)
  | .create initialCapacity alloc => (code.create initialCapacity alloc).map (keep lists)
  | .copy handle alloc allocs =>
      lists[handle]?.bind fun list => (code.copy list alloc allocs).map (keep lists)
  | .on handle op =>
      lists[handle]?.bind fun list =>
        (listStep list op).map fun r => (.out r.1, lists.set handle r.2)

/-- What a call does to a sequence. -/
def listSpec (entries : List code.Entry) :
    ListOp code → ListOut code → List code.Entry → Prop
  | .append name data _, out, entries' => out = .ret 1 ∧ entries' = entries ++ [(name, data)]
  | .insert index name data _, out, entries' =>
      if index ≤ entries.length then out = .ret 1 ∧ entries' = entries.insertIdx index (name, data)
      else out = .ret 0 ∧ entries' = entries
  | .remove index, out, entries' =>
      if index < entries.length then out = .ret 1 ∧ entries' = entries.eraseIdx index
      else out = .ret 0 ∧ entries' = entries
  | .clear, out, entries' => out = .done ∧ entries' = []
  | .resize newCapacity _, out, entries' => out = .ret 1 ∧ entries' = entries.take newCapacity
  | .get index, out, entries' => out = .item (entries[index]?.map slotOf) ∧ entries' = entries
  | .size, out, entries' => out = .size entries.length ∧ entries' = entries
  | .find text, out, entries' =>
      (∃ index, out = .index index ∧ FindsFirst entries text index) ∧ entries' = entries

/-- What a call does to the sequences. -/
def storeSpec (seqs : List (List code.Entry)) :
    StoreOp code → StoreOut code → List (List code.Entry) → Prop
  | .create _ _, out, seqs' => out = .list (some seqs.length) ∧ seqs' = seqs ++ [[]]
  | .copy handle _ _, out, seqs' =>
      ∃ entries, seqs[handle]? = some entries ∧ out = .list (some seqs.length) ∧
        seqs' = seqs ++ [entries]
  | .on handle op, out, seqs' =>
      ∃ entries out' entries', seqs[handle]? = some entries ∧ listSpec entries op out' entries' ∧
        out = .out out' ∧ seqs' = seqs.set handle entries'

/-- The allocations of a call on a list succeed, and its byte counts do not wrap. -/
def ListAllowed (list : code.Items) : ListOp code → Prop
  | .append _ _ alloc => Succeeds alloc ∧ MayGrow list (list.count + 1)
  | .insert index _ _ alloc =>
      Succeeds alloc ∧ (index ≤ list.count → MayGrow list (list.count + 1))
  | .resize newCapacity alloc => Succeeds alloc ∧ code.itemSize * newCapacity < sizeMod
  | _ => True

/-- The list is there, the allocations succeed, and no byte count wraps. -/
def StoreAllowed (lists : List code.Items) : StoreOp code → Prop
  | .create initialCapacity alloc =>
      Succeeds alloc ∧ MayGrow (⟨0, 0, some []⟩ : code.Items) initialCapacity
  | .copy handle alloc allocs =>
      (Succeeds alloc ∧ ∀ i, Succeeds (allocs i)) ∧
        ∃ list, lists[handle]? = some list ∧
          MayGrow (⟨0, 0, some []⟩ : code.Items) list.capacity
  | .on handle op => ∃ list, lists[handle]? = some list ∧ ListAllowed list op

/-- **One call on a list.** -/
theorem listStep_refines :
    Refines (listStep : code.Items → ListOp code → _) listSpec ListAllowed Represents := by
  intro list entries op hlist hallowed
  have hcount : list.count = entries.length := by
    obtain ⟨free, rfl, -⟩ := hlist
    rfl
  cases op with
  | append name data alloc =>
      obtain ⟨list', happend, hlist', -⟩ :=
        append_eq hallowed.1.2.1 hallowed.1.2.2 hlist hallowed.2 name data
      exact ⟨_, _, _, by rw [listStep, happend, Option.map_some], ⟨rfl, rfl⟩, hlist'⟩
  | insert index name data alloc =>
      by_cases hindex : index ≤ entries.length
      · obtain ⟨list', hinsert, hlist'⟩ := insert_eq hallowed.1.2.1 hallowed.1.2.2 hlist hindex
          (hallowed.2 (hcount ▸ hindex)) name data
        exact ⟨_, _, _, by rw [listStep, hinsert, Option.map_some],
          by rw [listSpec, if_pos hindex]; exact ⟨rfl, rfl⟩, hlist'⟩
      · have hrefused : code.insert list index name data alloc = some (0, list) := by
          rw [ListCode.insert, if_pos (by omega)]
        exact ⟨_, _, _, by rw [listStep, hrefused, Option.map_some],
          by rw [listSpec, if_neg hindex]; exact ⟨rfl, rfl⟩, hlist⟩
  | remove index =>
      by_cases hindex : index < entries.length
      · obtain ⟨list', hremove, hlist'⟩ := remove_eq hlist hindex
        exact ⟨_, _, _, by rw [listStep, hremove, Option.map_some],
          by rw [listSpec, if_pos hindex]; exact ⟨rfl, rfl⟩, hlist'⟩
      · have hrefused : code.remove list index = some (0, list) := by
          rw [ListCode.remove, if_pos (by omega)]
        exact ⟨_, _, _, by rw [listStep, hrefused, Option.map_some],
          by rw [listSpec, if_neg hindex]; exact ⟨rfl, rfl⟩, hlist⟩
  | clear =>
      obtain ⟨list', hclear, hlist'⟩ := clear_eq hlist
      exact ⟨_, _, _, by rw [listStep, hclear, Option.map_some], ⟨rfl, rfl⟩, hlist'⟩
  | resize newCapacity alloc =>
      obtain ⟨list', hresize, hlist'⟩ := resize_eq hallowed.1.2.1 hlist hallowed.2
      exact ⟨_, _, _, by rw [listStep, hresize, Option.map_some], ⟨rfl, rfl⟩, hlist'⟩
  | get index =>
      exact ⟨_, _, _, by rw [listStep, get_eq hlist, Option.map_some], ⟨rfl, rfl⟩, hlist⟩
  | size => exact ⟨_, _, _, rfl, ⟨by rw [size, hcount], rfl⟩, hlist⟩
  | find text =>
      obtain ⟨index, hfind, hfirst⟩ := find_eq hlist text
      exact ⟨_, _, _, by rw [listStep, hfind, Option.map_some], ⟨⟨index, rfl, hfirst⟩, rfl⟩, hlist⟩

/-- Each list stands for the sequence with its number. -/
structure StandFor (lists : List code.Items) (seqs : List (List code.Entry)) : Prop where
  length_eq : lists.length = seqs.length
  represents : ∀ (i : ℕ) (list : code.Items) (entries : List code.Entry),
    lists[i]? = some list → seqs[i]? = some entries → Represents list entries

namespace StandFor

variable {lists : List code.Items} {seqs : List (List code.Entry)}

theorem lookup (hstand : StandFor lists seqs) {i : ℕ} {list : code.Items}
    (hlist : lists[i]? = some list) :
    ∃ entries, seqs[i]? = some entries ∧ Represents list entries := by
  have hlt : i < seqs.length := by
    rw [← hstand.length_eq]
    exact (List.getElem?_eq_some_iff.mp hlist).1
  exact ⟨seqs[i], List.getElem?_eq_getElem hlt,
    hstand.represents i list _ hlist (List.getElem?_eq_getElem hlt)⟩

/-- A new list. -/
theorem keep (hstand : StandFor lists seqs) {list : code.Items} {entries : List code.Entry}
    (hlist : Represents list entries) : StandFor (lists ++ [list]) (seqs ++ [entries]) := by
  refine ⟨by simp [hstand.length_eq], fun i other entries' hother hentries' => ?_⟩
  by_cases hold : i < lists.length
  · rw [List.getElem?_append_left hold] at hother
    rw [List.getElem?_append_left (hstand.length_eq ▸ hold)] at hentries'
    exact hstand.represents i other entries' hother hentries'
  · rw [List.getElem?_append_right (by omega)] at hother
    rw [List.getElem?_append_right (by have := hstand.length_eq; omega), ← hstand.length_eq]
      at hentries'
    rw [List.getElem?_singleton] at hother hentries'
    split_ifs at hother hentries'
    rw [← Option.some.inj hother, ← Option.some.inj hentries']
    exact hlist

/-- A changed list. -/
theorem set (hstand : StandFor lists seqs) {handle : ℕ} {list : code.Items}
    {entries : List code.Entry} (hlist : Represents list entries) :
    StandFor (lists.set handle list) (seqs.set handle entries) := by
  refine ⟨by simp [hstand.length_eq], fun i other entries' hother hentries' => ?_⟩
  rw [List.getElem?_set] at hother hentries'
  split_ifs at hother hentries' with hhandle hlists hseqs
  · rw [← Option.some.inj hother, ← Option.some.inj hentries']
    exact hlist
  · exact hstand.represents i other entries' hother hentries'

end StandFor

/-- **One call.** -/
theorem storeStep_refines :
    Refines (storeStep : List code.Items → StoreOp code → _) storeSpec StoreAllowed StandFor := by
  intro lists seqs op hstand hallowed
  cases op with
  | create initialCapacity alloc =>
      obtain ⟨list, hcreate, hlist, -⟩ := create_eq hallowed.1 hallowed.2
      exact ⟨_, _, _, by rw [storeStep, hcreate, Option.map_some, ListCode.keep],
        ⟨by rw [hstand.length_eq], rfl⟩, hstand.keep hlist⟩
  | copy handle alloc allocs =>
      obtain ⟨⟨halloc, hallocs⟩, list, hhandle, hgrow⟩ := hallowed
      obtain ⟨entries, hentries, hlist⟩ := hstand.lookup hhandle
      obtain ⟨list', hcopy, hlist'⟩ := copy_eq halloc hallocs hlist hgrow
      exact ⟨_, _, _, by
          rw [storeStep, hhandle, Option.bind_some, hcopy, Option.map_some, ListCode.keep],
        ⟨entries, hentries, by rw [hstand.length_eq], rfl⟩, hstand.keep hlist'⟩
  | on handle op =>
      obtain ⟨list, hhandle, hop⟩ := hallowed
      obtain ⟨entries, hentries, hlist⟩ := hstand.lookup hhandle
      obtain ⟨out, list', entries', hstep, hspec, hlist'⟩ :=
        listStep_refines list entries op hlist hop
      exact ⟨_, _, _, by rw [storeStep, hhandle, Option.bind_some, hstep, Option.map_some],
        ⟨entries, out, entries', hentries, hspec, rfl, rfl⟩, hstand.set hlist'⟩

/-- The array of a list: as many slots as the capacity says, the items in front with their
strings, and null slots behind. -/
def WellFormed (list : code.Items) (entries : List code.Entry) : Prop :=
  list.count = entries.length ∧ list.count ≤ list.capacity ∧
    ∃ slots, list.items = some slots ∧ slots.length = list.capacity ∧
      slots.take list.count = entries.map slotOf ∧
      ∀ i, list.count ≤ i → i < list.capacity → slots[i]? = some code.null

theorem Represents.wellFormed {list : code.Items} {entries : List code.Entry}
    (hlist : Represents list entries) : WellFormed list entries := by
  obtain ⟨free, rfl, -⟩ := hlist
  refine ⟨rfl, Nat.le_add_right _ _, slotsOf entries free, rfl, slotsOf_length entries free, ?_,
    fun i hcount hcapacity => ?_⟩
  · rw [listOf_count, slotsOf, List.take_left' (List.length_map _)]
  · rw [listOf_count] at hcount
    rw [listOf_capacity] at hcapacity
    rw [slotsOf, List.getElem?_append_right (by rwa [List.length_map]), List.length_map,
      List.getElem?_replicate, if_pos (by omega)]

end ListCode

open ListCode

/-- **Programs over growable lists are programs over sequences.** Any calls whose
allocations succeed and whose byte counts do not wrap answer as the sequences do, and
behind them every list has the items of its sequence in front and null slots behind. -/
theorem runOps_storeStep_refines (m : ListModule) (ops : List (StoreOp m.code))
    (hallowed : Admissible storeStep StoreAllowed ops []) :
    ∃ outs lists seqs, runOps storeStep ops [] = some (outs, lists) ∧
      Explains storeSpec [] ops outs seqs ∧ lists.length = seqs.length ∧
      ∀ (i : ℕ) (list : m.code.Items) (entries : List m.code.Entry),
        lists[i]? = some list → seqs[i]? = some entries → WellFormed list entries := by
  have hnew : StandFor ([] : List m.code.Items) [] := ⟨rfl, by simp⟩
  obtain ⟨outs, lists, seqs, hrun, hexplains, hstand⟩ := storeStep_refines.run hnew hallowed
  exact ⟨outs, lists, seqs, hrun, hexplains, hstand.length_eq, fun i list entries hlist hentries =>
    (hstand.represents i list entries hlist hentries).wellFormed⟩

/-- How the allocations of the next example turn out. -/
def plainAlloc : Alloc stringList.Slot := ⟨true, true, true, true, fun _ => stringList.null⟩

/-- A new list with room for one item, an item, and a resize to nothing. -/
theorem runOps_storeStep_refines_example :
    ∃ outs lists seqs,
      runOps storeStep [.create 1 plainAlloc, .on 0 (.append [CChar.star] () plainAlloc),
          .on 0 (.resize 0 plainAlloc)] ([] : List stringList.Items) = some (outs, lists) ∧
        Explains storeSpec [] [.create 1 plainAlloc, .on 0 (.append [CChar.star] () plainAlloc),
          .on 0 (.resize 0 plainAlloc)] outs seqs ∧ lists.length = seqs.length ∧
        ∀ (i : ℕ) (list : stringList.Items) (entries : List stringList.Entry),
          lists[i]? = some list → seqs[i]? = some entries → WellFormed list entries := by
  have hcreated : storeStep ([] : List stringList.Items) (.create 1 plainAlloc) =
      some (.list (some 0), [listOf [] 16]) := rfl
  have happended : storeStep ([listOf [] 16] : List stringList.Items)
      (.on 0 (.append [CChar.star] () plainAlloc)) =
      some (.out (.ret 1), [listOf [([CChar.star], ())] 15]) := rfl
  have halloc : Succeeds plainAlloc := ⟨rfl, rfl, rfl⟩
  refine runOps_storeStep_refines .string _
    ⟨⟨halloc, fun _ => ⟨0, by decide, by decide⟩⟩, fun out lists hcreate => ?_⟩
  obtain ⟨rfl, rfl⟩ := Prod.mk.inj (Option.some.inj (hcreated.symm.trans hcreate))
  refine ⟨⟨_, rfl, halloc, fun hfull => absurd hfull (by decide)⟩, fun out lists happend => ?_⟩
  obtain ⟨rfl, rfl⟩ := Prod.mk.inj (Option.some.inj (happended.symm.trans happend))
  exact ⟨⟨_, rfl, halloc, by decide⟩, fun _ _ _ => trivial⟩

end BasC
