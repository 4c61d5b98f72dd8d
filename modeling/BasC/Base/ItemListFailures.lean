/-
# Failing calls on a growable list

A call that returns zero is meant to leave the list as it was. That holds of every call but
three: a shrinking `string_list_resize` frees strings before its `realloc` fails, and where the
bytes of a new array wrap to zero, `realloc` frees the old one.
-/

import BasC.Base.ItemListStates

namespace BasC

namespace ListCode

variable {code : ListCode}

/-- Any call is allowed. -/
def AnyCall (_ : code.Items) (_ : ListOp code) : Prop := True

/-- A call that returns zero leaves the count and the items. -/
def KeepsOnFailure (list : code.Items) (op : ListOp code) : Prop :=
  ∀ list', listStep list op = some (.ret 0, list') →
    list'.count = list.count ∧ ∀ index, code.get list' index = code.get list index

/-- Calls that lose items and return zero: a resize that cuts items off, and those that ask for
zero bytes. -/
def LosesItems (list : code.Items) (op : ListOp code) : Prop :=
  list.items ≠ none ∧
    match op with
    | .append _ _ alloc => 0 < list.count ∧ GrowsToNothing list alloc
    | .insert index _ _ alloc => index ≤ list.count ∧ 0 < list.count ∧ GrowsToNothing list alloc
    | .resize newCapacity alloc =>
        0 < newCapacity ∧ (newCapacity < list.count ∧ alloc.realloc = false ∨
          0 < list.count ∧ code.bytes newCapacity = 0 ∧ alloc.zeroIsNull = true)
    | _ => False

variable {list list' : code.Items} {entries : List code.Entry} {slots slots' : List code.Slot}
  {op : ListOp code} {alloc : Alloc code.Slot}

/-- The items of a list are what `string_list_get` returns. -/
theorem Holds.get_eq (hlist : Holds list entries slots) (index : ℕ) :
    code.get list index = some (entries[index]?.map slotOf) := by
  obtain ⟨behind, rfl, hlist'⟩ := hlist.exists_behind
  rw [hlist']
  exact get_behind _ entries behind index

/-- Lists with the same items have the same count, and `string_list_get` returns the same. -/
theorem Holds.same (hlist : Holds list entries slots) (hlist' : Holds list' entries slots') :
    list'.count = list.count ∧ ∀ index, code.get list' index = code.get list index := by
  refine ⟨hlist'.count_eq.trans hlist.count_eq.symm, fun index => ?_⟩
  rw [hlist.get_eq, hlist'.get_eq]

/-- Without an array there is no first item. -/
theorem Holds.lost (hlist : Holds list entries slots) (hpos : 0 < list'.count)
    (hgone : list'.items = none) :
    ¬ ∀ index, code.get list' index = code.get list index := by
  intro hsame
  have hfirst := hsame 0
  rw [hlist.get_eq, get, if_neg (by omega), load_gone hgone] at hfirst
  cases hfirst

/-- Without items there is nothing to lose. -/
theorem same_of_empty (hzero : list.count = 0) (hcount : list'.count = 0) :
    list'.count = list.count ∧ ∀ index, code.get list' index = code.get list index := by
  refine ⟨hcount.trans hzero.symm, fun index => ?_⟩
  rw [get, get, hcount, hzero, if_pos (Nat.zero_le _), if_pos (Nat.zero_le _)]

theorem Holds.append_frees (hlist : Holds list entries slots) (hpos : 0 < list.count)
    (hgrows : GrowsToNothing list alloc) (name : code.Text) (data : code.Data) :
    code.append list name data alloc = some (0, { list with items := none }) := by
  rw [append, hlist.makeRoom_frees hpos hgrows, Option.bind_some, if_pos rfl]

theorem Holds.insert_frees (hlist : Holds list entries slots) (hpos : 0 < list.count)
    (hgrows : GrowsToNothing list alloc) {index : ℕ} (hindex : index ≤ list.count)
    (name : code.Text) (data : code.Data) :
    code.insert list index name data alloc = some (0, { list with items := none }) := by
  rw [insert, if_neg (Nat.not_lt.mpr hindex), hlist.makeRoom_frees hpos hgrows, Option.bind_some,
    if_pos rfl]

/-- A `realloc` that fails, after the count has been cut. -/
theorem Holds.resize_fails (hlist : Holds list entries slots) {newCapacity : ℕ}
    (hpos : 0 < newCapacity)
    (hrealloc : code.realloc alloc slots (code.bytes newCapacity) = none) :
    code.resize list newCapacity alloc =
      some (0, { list with
        count := (entries.take newCapacity).length,
        items := code.kept slots (code.bytes newCapacity) }) := by
  rw [resize, hlist.loadAll, Option.bind_some]
  simp only [cutCount_eq hlist.count_eq]
  rw [hlist.items_eq, Option.bind_some, hrealloc, if_pos ⟨rfl, hpos⟩]

theorem Holds.not_keepsOnFailure (hlist : Holds list entries slots) (hloses : LosesItems list op) :
    ¬ KeepsOnFailure list op := by
  intro hkeeps
  obtain ⟨-, hloses⟩ := hloses
  cases op with
  | append name data alloc =>
      obtain ⟨hpos, hgrows⟩ := hloses
      have hfrees := hlist.append_frees hpos hgrows name data
      have hkept := hkeeps { list with items := none } (by
        rw [listStep, hfrees, Option.map_some])
      refine hlist.lost ?_ ?_ hkept.2
      · exact hpos
      · rfl
  | insert index name data alloc =>
      obtain ⟨hindex, hpos, hgrows⟩ := hloses
      have hfrees := hlist.insert_frees hpos hgrows hindex name data
      have hkept := hkeeps { list with items := none } (by
        rw [listStep, hfrees, Option.map_some])
      refine hlist.lost ?_ ?_ hkept.2
      · exact hpos
      · rfl
  | resize newCapacity alloc =>
      obtain ⟨hpos, ⟨hcut, hfail⟩ | ⟨hcount, hzero, hnull⟩⟩ := hloses
      · -- the strings behind the new capacity are gone
        have hcut' : newCapacity ≤ entries.length := hlist.count_eq ▸ Nat.le_of_lt hcut
        have hfits := Nat.lt_of_le_of_lt (Nat.mul_le_mul_left _ hcut') hlist.length_lt.2
        have hbytes : code.bytes newCapacity ≠ 0 := by
          rw [(bytes_div hfits).1]
          exact (Nat.mul_pos code.itemSize_pos hpos).ne'
        have hrealloc : code.realloc alloc slots (code.bytes newCapacity) = none := by
          rw [realloc, if_neg hbytes, hfail, if_neg Bool.false_ne_true]
        have hkept := hkeeps _ (by
          rw [listStep, hlist.resize_fails hpos hrealloc, Option.map_some])
        have hsame : (entries.take newCapacity).length = list.count := hkept.1
        rw [List.length_take, Nat.min_eq_left hcut'] at hsame
        exact hcut.ne hsame
      · -- zero bytes free the array
        have hrealloc : code.realloc alloc slots (code.bytes newCapacity) = none := by
          rw [realloc, if_pos hzero, hnull, if_pos rfl]
        have hkept := hkeeps _ (by
          rw [listStep, hlist.resize_fails hpos hrealloc, Option.map_some])
        refine hlist.lost ?_ (if_pos hzero) hkept.2
        rw [hkept.1]
        exact hcount
  | _ => exact hloses

/-- The call behind a return value. -/
theorem call_of_ret {call : Option (ℤ × code.Items)} {ret : ℤ}
    (hcall : (call.map fun r => ((.ret r.1, r.2) : ListOut code × code.Items)) =
      some (.ret ret, list')) :
    call = some (ret, list') := by
  obtain ⟨⟨ret', returned⟩, rfl, hout⟩ := Option.map_eq_some_iff.mp hcall
  obtain ⟨hret, rfl⟩ := Prod.mk.inj hout
  obtain rfl : ret' = ret := ListOut.ret.inj hret
  rfl

theorem Holds.keepsOnFailure (hlist : Holds list entries slots) (hkeeps : ¬ LosesItems list op) :
    KeepsOnFailure list op := by
  intro list' hstep
  have hthere : list.items ≠ none := by
    rw [hlist.items_eq]
    exact Option.some_ne_none _
  cases op with
  | append name data alloc =>
      have happend := call_of_ret hstep
      rcases hlist.append_cases happend with ⟨hone, -⟩ | ⟨-, slots', hlist'⟩ | ⟨-, rfl, hgrows⟩
      · cases hone
      · exact hlist.same hlist'
      · have hzero : list.count = 0 := by
          by_contra hne
          have hpos := Nat.pos_of_ne_zero hne
          exact hkeeps ⟨hthere, hpos, hgrows hpos⟩
        exact same_of_empty hzero hzero
  | insert index name data alloc =>
      have hinsert := call_of_ret hstep
      rcases hlist.insert_cases hinsert with
        ⟨hone, -⟩ | ⟨-, slots', hlist'⟩ | ⟨-, rfl, hindex, hgrows⟩
      · cases hone
      · exact hlist.same hlist'
      · have hzero : list.count = 0 := by
          by_contra hne
          have hpos := Nat.pos_of_ne_zero hne
          exact hkeeps ⟨hthere, hindex, hpos, hgrows hpos⟩
        exact same_of_empty hzero hzero
  | remove index =>
      have hremove := call_of_ret hstep
      rcases hlist.remove_cases hremove with ⟨hone, -⟩ | ⟨-, rfl⟩
      · cases hone
      · exact hlist.same hlist
  | clear =>
      obtain ⟨cleared, -, hout⟩ := Option.map_eq_some_iff.mp hstep
      cases (Prod.mk.inj hout).1
  | resize newCapacity alloc =>
      have hresize := call_of_ret hstep
      rcases hlist.resize_cases hresize with
        ⟨hone, -⟩ | ⟨-, hfail, hpos, rfl⟩ | ⟨-, ⟨hzero, hnull, hpos⟩, hcount, hgone⟩
      · cases hone
      · have hle : entries.length ≤ newCapacity := by
          by_contra hlt
          rw [← hlist.count_eq, Nat.not_le] at hlt
          exact hkeeps ⟨hthere, hpos, .inl ⟨hlt, hfail⟩⟩
        have hlist' := hlist.take newCapacity
        rw [List.take_of_length_le hle] at hlist' ⊢
        exact hlist.same hlist'
      · have hempty : list.count = 0 := by
          by_contra hne
          exact hkeeps ⟨hthere, hpos, .inr ⟨Nat.pos_of_ne_zero hne, hzero, hnull⟩⟩
        refine same_of_empty hempty ?_
        rw [hcount, List.length_take, ← hlist.count_eq, hempty, Nat.min_zero]
  | get index =>
      obtain ⟨slot, -, hout⟩ := Option.map_eq_some_iff.mp hstep
      cases (Prod.mk.inj hout).1
  | size => cases (Prod.mk.inj (Option.some.inj hstep)).1
  | find text =>
      obtain ⟨index, -, hout⟩ := Option.map_eq_some_iff.mp hstep
      cases (Prod.mk.inj hout).1

end ListCode

open ListCode

/-- **A failing call leaves the list as it was, unless it is one of those that lose items.** -/
theorem keepsOnFailure_iff (m : ListModule) {list : m.code.Items} (hreach : ListReach AnyCall list)
    (op : ListOp m.code) : KeepsOnFailure list op ↔ ¬ LosesItems list op := by
  rcases hreach.holds (P := fun _ => True) trivial (fun _ _ _ _ => trivial)
    (fun _ _ _ _ _ _ _ _ _ => trivial) with hgone | ⟨entries, slots, hlist, -⟩
  · refine ⟨fun _ hloses => hloses.1 hgone, fun _ list' hstep => ?_⟩
    rw [(listStep_gone hgone hstep).2 rfl]
    exact ⟨rfl, fun _ => rfl⟩
  · exact ⟨fun hkeeps hloses => hlist.not_keepsOnFailure hloses hkeeps, hlist.keepsOnFailure⟩

/-- Allocations that succeed, in any module. -/
def easyAlloc (code : ListCode) : Alloc code.Slot := ⟨true, true, true, true, fun _ => code.null⟩

/-- Two strings are appended to a new list. -/
theorem listReach_twoStars :
    ListReach AnyCall (listOf [([CChar.star], ()), ([CChar.star], ())] 14 : stringList.Items) := by
  have hempty : ListReach AnyCall (⟨0, 0, some []⟩ : stringList.Items) :=
    .create (show stringList.create 0 (easyAlloc _) = _ from rfl)
  have hfirst : listStep (⟨0, 0, some []⟩ : stringList.Items)
      (.append [CChar.star] () (easyAlloc stringList)) =
      some (.ret 1, listOf [([CChar.star], ())] 15) := rfl
  have hsecond : listStep (listOf [([CChar.star], ())] 15 : stringList.Items)
      (.append [CChar.star] () (easyAlloc stringList)) =
      some (.ret 1, listOf [([CChar.star], ()), ([CChar.star], ())] 14) := rfl
  exact (hempty.call trivial hfirst).call trivial hsecond

/-- Allocations that fail, in any module. -/
def refusedAlloc (code : ListCode) : Alloc code.Slot :=
  ⟨false, false, false, false, fun _ => code.null⟩

/-- A third string, for which there is no memory, between two. -/
theorem keepsOnFailure_iff_refused :
    KeepsOnFailure (listOf [([CChar.star], ()), ([CChar.star], ())] 14 : stringList.Items)
        (.insert 1 [CChar.star] () (refusedAlloc stringList)) ↔
      ¬ LosesItems (listOf [([CChar.star], ()), ([CChar.star], ())] 14 : stringList.Items)
        (.insert 1 [CChar.star] () (refusedAlloc stringList)) :=
  keepsOnFailure_iff .string listReach_twoStars _

/-- Two strings in a list, and a resize to one slot for which there is no memory: one string is
left. -/
theorem not_keepsOnFailure_resize :
    ∃ (list : stringList.Items) (alloc : Alloc stringList.Slot),
      ListReach AnyCall list ∧ ¬ KeepsOnFailure list (.resize 1 alloc) := by
  refine ⟨_, refusedAlloc stringList, listReach_twoStars, fun hkeeps => ?_⟩
  have hcount := (hkeeps _ rfl).1
  cases hcount

end BasC
