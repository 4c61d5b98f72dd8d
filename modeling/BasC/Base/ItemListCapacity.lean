/-
# The capacity of a growable list

A capacity is doubled until it is enough, and multiplied by the size of a slot. Both wrap: a
request beyond half the address space is never reached by doubling, and one whose bytes do not
fit gets an array that is far too short. Exactly the other requests are met.
-/

import BasC.Base.ItemListFailures

namespace BasC

namespace ListCode

variable {code : ListCode}

theorem growCapacity_add {fuel start minCapacity : ℕ} (k : ℕ)
    (hloops : growCapacity k start minCapacity = none)
    (hrest : growCapacity fuel (start * 2 ^ k % sizeMod) minCapacity = none)
    (hstart : start < sizeMod) : growCapacity (k + fuel) start minCapacity = none := by
  induction k generalizing start with
  | zero =>
      rw [Nat.pow_zero, Nat.mul_one, Nat.mod_eq_of_lt hstart] at hrest
      rwa [Nat.zero_add]
  | succ k ih =>
      rw [growCapacity] at hloops
      rw [Nat.succ_add, growCapacity]
      split_ifs at hloops ⊢ with henough
      refine ih hloops ?_ (Nat.mod_lt _ (by decide))
      rwa [listGrowthFactor, Nat.mod_mul_mod, Nat.mul_assoc, ← Nat.pow_succ']

theorem growCapacity_zero {minCapacity : ℕ} (hpos : 0 < minCapacity) (fuel : ℕ) :
    growCapacity fuel 0 minCapacity = none := by
  induction fuel with
  | zero => rfl
  | succ fuel ih =>
      rw [growCapacity, if_neg (by omega), Nat.zero_mul, Nat.zero_mod]
      exact ih

/-- **A loop that has not ended after 64 doublings never does.** -/
theorem growCapacity_endless {start minCapacity : ℕ} (hstart : start < sizeMod)
    (hloops : growCapacity 65 start minCapacity = none) (fuel : ℕ) :
    growCapacity (65 + fuel) start minCapacity = none := by
  have hpos : 0 < minCapacity := by
    by_contra hzero
    rw [growCapacity, if_pos (by omega)] at hloops
    cases hloops
  have hzero : start * 2 ^ 65 % sizeMod = 0 := by
    have hmul : start * 2 ^ 65 = sizeMod * (2 * start) := by
      rw [sizeMod]
      omega
    rw [hmul, Nat.mul_mod_right]
  refine growCapacity_add 65 hloops ?_ hstart
  rw [hzero]
  exact growCapacity_zero hpos fuel

/-- A loop that ends with a number of slots whose bytes do not wrap has not wrapped. -/
theorem reaches_of_growCapacity {fuel start minCapacity newCapacity : ℕ}
    (hgrow : growCapacity fuel start minCapacity = some newCapacity)
    (hfits : code.itemSize * newCapacity < sizeMod) : code.Reaches start minCapacity := by
  induction fuel generalizing start with
  | zero => cases hgrow
  | succ fuel ih =>
      have hmin := growCapacity_some hgrow
      rw [growCapacity] at hgrow
      split_ifs at hgrow with henough
      · obtain rfl := Option.some.inj hgrow
        exact ⟨0, by rwa [Nat.pow_zero, Nat.mul_one], by rwa [Nat.pow_zero, Nat.mul_one]⟩
      · -- the next capacity is below the last one
        have hdouble : start * listGrowthFactor < sizeMod := by
          have hsmall := length_lt hfits
          have hmod : sizeMod = 2 * 0x8000000000000000 := rfl
          rw [listGrowthFactor]
          omega
        rw [Nat.mod_eq_of_lt hdouble] at hgrow
        obtain ⟨doublings, hreaches, hbytes⟩ := ih hgrow
        rw [Nat.mul_assoc, ← Nat.pow_succ'] at hreaches hbytes
        exact ⟨doublings + 1, hreaches, hbytes⟩

theorem bytes_eq_iff (n : ℕ) :
    code.bytes n = code.itemSize * n ↔ code.itemSize * n < sizeMod := by
  constructor
  · intro hbytes
    rw [← hbytes]
    exact bytes_lt n
  · intro hfits
    exact (bytes_div hfits).1

theorem realloc_length {alloc : Alloc code.Slot} {slots newItems : List code.Slot} {n : ℕ}
    (hrealloc : code.realloc alloc slots (code.bytes n) = some newItems)
    (hfits : code.itemSize * n < sizeMod) : newItems.length = n := by
  rw [(realloc_some hrealloc).1, (bytes_div hfits).2]

/-- Slots of the array are there to be cleared. -/
theorem clearNew_defined {slots : List code.Slot} {start n : ℕ} (hroom : start + n ≤ slots.length)
    (hfits : code.itemSize * n < sizeMod) :
    ∃ cleared, code.clearNew slots start n = some cleared := by
  have hcells : (if code.clearsByLoop then n else code.bytes n / code.itemSize) = n := by
    split
    · rfl
    · exact (bytes_div hfits).2
  simp only [clearNew, hcells]
  exact ⟨_, if_pos hroom⟩

theorem loadAll_defined {list : code.Items} {slots : List code.Slot}
    (hitems : list.items = some slots)
    {rounds i : ℕ} (hroom : i + rounds ≤ slots.length) : code.loadAll rounds i list = some () := by
  induction rounds generalizing i with
  | zero => rfl
  | succ rounds ih =>
      have hload : code.load list i = some slots[i] := by
        rw [load, hitems, Option.bind_some, List.getElem?_eq_getElem]
      rw [loadAll, hload, Option.bind_some]
      exact ih (by omega)

/-- The array is there, with the items in it, and its bytes are those of its slots. -/
def Usable (list : code.Items) : Prop :=
  ∃ slots, list.items = some slots ∧ list.count ≤ slots.length ∧
    code.itemSize * slots.length < sizeMod

/-- A list that calls lead to is usable until its array is gone. -/
theorem ListReach.usable {list : code.Items} (hreach : ListReach AnyCall list) :
    list.items = none ∨ Usable list := by
  rcases hreach.holds (P := fun _ => True) trivial (fun _ _ _ _ => trivial)
    (fun _ _ _ _ _ _ _ _ _ => trivial) with hgone | ⟨entries, slots, hlist, -⟩
  · exact .inl hgone
  · exact .inr ⟨slots, hlist.items_eq, hlist.count_eq ▸ hlist.length_lt.1, hlist.fits⟩

section Growing

variable {list : code.Items} {slots : List code.Slot} {minCapacity : ℕ}

/-- A request that doubling reaches is met, or there is no memory. -/
theorem ensureCapacity_meets (hitems : list.items = some slots)
    (hfull : list.capacity < minCapacity)
    (hreaches : code.Reaches (code.startCapacity list) minCapacity) (alloc : Alloc code.Slot) :
    ∃ ret list', code.ensureCapacity list minCapacity alloc = some (ret, list') ∧
      (ret ≠ 0 → minCapacity ≤ list'.capacity ∧
        code.bytes list'.capacity = code.itemSize * list'.capacity) := by
  obtain ⟨newCapacity, hgrow, hmin, hfits⟩ :=
    growCapacity_of_reaches (startCapacity_pos list) hreaches
  rw [ensureCapacity, if_neg (by omega), hgrow, Option.bind_some, hitems, Option.bind_some]
  cases hrealloc : code.realloc alloc slots (code.bytes newCapacity) with
  | none => exact ⟨0, _, rfl, fun hne => absurd rfl hne⟩
  | some newItems =>
      have hroom : list.capacity + (newCapacity - list.capacity) ≤ newItems.length := by
        rw [realloc_length hrealloc hfits]
        omega
      obtain ⟨cleared, hclear⟩ := clearNew_defined hroom
        (Nat.lt_of_le_of_lt (Nat.mul_le_mul_left _ (Nat.sub_le _ _)) hfits)
      refine ⟨1, { list with items := some cleared, capacity := newCapacity }, ?_,
        fun _ => ⟨hmin, (bytes_div hfits).1⟩⟩
      show (code.clearNew newItems _ _).map _ = _
      rw [hclear, Option.map_some]

/-- Memory for everything. -/
def plentyAlloc (code : ListCode) : Alloc code.Slot := ⟨true, true, false, true, fun _ => code.null⟩

theorem realloc_plenty (slots : List code.Slot) (bytes : ℕ) :
    ∃ newItems, code.realloc (plentyAlloc code) slots bytes = some newItems := by
  rw [realloc]
  by_cases hzero : bytes = 0
  · exact ⟨[], if_pos hzero⟩
  · exact ⟨_, by rw [if_neg hzero, plentyAlloc, if_pos rfl]⟩

/-- A request that is met without a wrap is one that doubling reaches. -/
theorem reaches_of_ensureCapacity (hitems : list.items = some slots)
    (hfull : list.capacity < minCapacity) {ret : ℤ} {list' : code.Items}
    (hensure : code.ensureCapacity list minCapacity (plentyAlloc code) = some (ret, list')) :
    ret ≠ 0 ∧ (code.bytes list'.capacity = code.itemSize * list'.capacity →
      code.Reaches (code.startCapacity list) minCapacity) := by
  rw [ensureCapacity, if_neg (by omega)] at hensure
  obtain ⟨newCapacity, hgrow, hensure⟩ := Option.bind_eq_some_iff.mp hensure
  obtain ⟨newItems, hrealloc⟩ := realloc_plenty slots (code.bytes newCapacity)
  rw [hitems, Option.bind_some, hrealloc] at hensure
  obtain ⟨cleared, -, hout⟩ := Option.map_eq_some_iff.mp hensure
  obtain ⟨rfl, rfl⟩ := Prod.mk.inj hout
  exact ⟨Int.one_ne_zero, fun hbytes =>
    reaches_of_growCapacity hgrow ((bytes_eq_iff newCapacity).mp hbytes)⟩

end Growing

/-- A call that asks for a capacity. Growing by one is what `string_list_append` and
`string_list_insert` begin with. -/
inductive SizeCall (code : ListCode)
  | create (initialCapacity : ℕ)
  | resize (list : code.Items) (newCapacity : ℕ)
  | grow (list : code.Items)

namespace SizeCall

/-- The list after a call that reports success, and `none` inside after one that fails. The
outer `none` is a call that does not end, or that is undefined. -/
def run (alloc : Alloc code.Slot) : SizeCall code → Option (Option code.Items)
  | .create initialCapacity => code.create initialCapacity alloc
  | .resize list newCapacity =>
      (code.resize list newCapacity alloc).map fun r => if r.1 = 0 then none else some r.2
  | .grow list =>
      (code.ensureCapacity list ((list.count + 1) % sizeMod) alloc).map fun r =>
        if r.1 = 0 then none else some r.2

/-- The number of slots that is asked for. -/
def request : SizeCall code → ℕ
  | .create initialCapacity => initialCapacity
  | .resize _ newCapacity => newCapacity
  | .grow list => list.count + 1

/-- A new array is needed. -/
def Reallocates : SizeCall code → Prop
  | .create initialCapacity => 0 < initialCapacity
  | .resize _ _ => True
  | .grow list => list.capacity < list.count + 1

/-- The list that the call is for. -/
def Ready : SizeCall code → Prop
  | .create _ => True
  | .resize list _ => Usable list
  | .grow list => Usable list

/-- **The capacity is right**: however allocations turn out, the call ends, and if it reports
success, there is the room asked for and a new array has the bytes of that many slots. -/
def Right (call : SizeCall code) : Prop :=
  ∀ alloc, ∃ out, call.run alloc = some out ∧ ∀ list', out = some list' →
    call.request ≤ list'.capacity ∧
      (call.Reallocates → code.bytes list'.capacity = code.itemSize * list'.capacity)

/-- A request that does not wrap: doubling reaches it, or its own bytes fit. -/
def Fits : SizeCall code → Prop
  | .create initialCapacity =>
      initialCapacity = 0 ∨ code.Reaches listDefaultCapacity initialCapacity
  | .resize _ newCapacity => code.itemSize * newCapacity < sizeMod
  | .grow list =>
      list.count + 1 ≤ list.capacity ∨ code.Reaches (code.startCapacity list) (list.count + 1)

theorem right_create_iff (initialCapacity : ℕ) :
    (create initialCapacity : SizeCall code).Right ↔
      (create initialCapacity : SizeCall code).Fits := by
  by_cases hpos : 0 < initialCapacity
  · constructor
    · intro hright
      obtain ⟨out, hrun, hlist⟩ := hright (plentyAlloc code)
      simp only [run, ListCode.create, plentyAlloc, if_true, if_pos hpos] at hrun
      obtain ⟨⟨ret, grown⟩, hensure, rfl⟩ := Option.map_eq_some_iff.mp hrun
      obtain ⟨hret, hreaches⟩ := reaches_of_ensureCapacity rfl hpos hensure
      exact .inr (hreaches ((hlist grown (if_neg hret)).2 hpos))
    · intro hfits alloc
      have hreaches := hfits.resolve_left hpos.ne'
      simp only [run, ListCode.create, if_pos hpos]
      split_ifs with hmalloc
      · have hnew : (⟨0, 0, some []⟩ : code.Items).items = some [] := rfl
        obtain ⟨ret, grown, hensure, hgrown⟩ := ensureCapacity_meets hnew hpos hreaches alloc
        refine ⟨_, by rw [hensure, Option.map_some], fun list' hout => ?_⟩
        split_ifs at hout with hret
        obtain rfl := Option.some.inj hout
        exact ⟨(hgrown hret).1, fun _ => (hgrown hret).2⟩
      · exact ⟨none, rfl, fun _ hout => by cases hout⟩
  · obtain rfl : initialCapacity = 0 := by omega
    refine ⟨fun _ => .inl rfl, fun _ alloc => ?_⟩
    simp only [run, ListCode.create, if_neg hpos]
    split_ifs with hmalloc
    · exact ⟨_, rfl, fun list' _ => ⟨Nat.zero_le _, fun hlt => absurd hlt hpos⟩⟩
    · exact ⟨none, rfl, fun _ hout => by cases hout⟩

theorem right_resize_iff {list : code.Items} (hlist : Usable list) (newCapacity : ℕ) :
    (resize list newCapacity).Right ↔ (resize list newCapacity).Fits := by
  obtain ⟨slots, hitems, hcount, -⟩ := hlist
  have hload : code.loadAll (list.count - newCapacity) newCapacity list = some () := by
    by_cases hle : newCapacity ≤ list.count
    · exact loadAll_defined hitems (by omega)
    · rw [Nat.sub_eq_zero_of_le (by omega)]
      rfl
  have hcut :
      (if newCapacity < list.count then { list with count := newCapacity } else list).items =
        some slots := by
    split_ifs
    · exact hitems
    · exact hitems
  simp only [Right, run, ListCode.resize, hload, Option.bind_some, Fits, request, Reallocates,
    forall_true_left]
  generalize (if newCapacity < list.count then { list with count := newCapacity } else list) = cut
    at hcut
  simp only [hcut, Option.bind_some]
  constructor
  · intro hright
    obtain ⟨out, hrun, hlist⟩ := hright (plentyAlloc code)
    obtain ⟨newItems, hrealloc⟩ := realloc_plenty slots (code.bytes newCapacity)
    rw [hrealloc, if_neg fun h => Bool.false_ne_true h.1] at hrun
    obtain ⟨⟨ret, list'⟩, hresized, rfl⟩ := Option.map_eq_some_iff.mp hrun
    have hout : ret = 1 ∧ list'.capacity = newCapacity := by
      split_ifs at hresized
      · obtain ⟨cleared, -, hout⟩ := Option.map_eq_some_iff.mp hresized
        obtain ⟨rfl, rfl⟩ := Prod.mk.inj hout
        exact ⟨rfl, rfl⟩
      · obtain ⟨rfl, rfl⟩ := Prod.mk.inj (Option.some.inj hresized)
        exact ⟨rfl, rfl⟩
    obtain ⟨rfl, rfl⟩ := hout
    exact (bytes_eq_iff _).mp (hlist list' (if_neg Int.one_ne_zero)).2
  · intro hfits alloc
    cases hrealloc : code.realloc alloc slots (code.bytes newCapacity) with
    | none =>
        by_cases hpos : 0 < newCapacity
        · exact ⟨none, by rw [if_pos ⟨rfl, hpos⟩]; rfl, fun _ hout => by cases hout⟩
        · obtain rfl : newCapacity = 0 := by omega
          refine ⟨_, by rw [if_neg fun h => hpos h.2, if_neg (Nat.not_lt_zero _)]; rfl, ?_⟩
          intro list' hout
          obtain rfl := Option.some.inj hout
          exact ⟨Nat.le_refl 0, (bytes_div hfits).1⟩
    | some newItems =>
        rw [if_neg fun h => Bool.false_ne_true h.1]
        have hlength := realloc_length hrealloc hfits
        split_ifs with hshort
        · have hroom : cut.count + (newCapacity - cut.count) ≤ newItems.length := by omega
          obtain ⟨cleared, hclear⟩ := clearNew_defined hroom
            (Nat.lt_of_le_of_lt (Nat.mul_le_mul_left _ (Nat.sub_le _ _)) hfits)
          refine ⟨_, by rw [Option.getD_some, hclear]; rfl, fun list' hout => ?_⟩
          obtain rfl := Option.some.inj hout
          exact ⟨Nat.le_refl _, (bytes_div hfits).1⟩
        · refine ⟨_, rfl, fun list' hout => ?_⟩
          obtain rfl := Option.some.inj hout
          exact ⟨Nat.le_refl _, (bytes_div hfits).1⟩

theorem right_grow_iff {list : code.Items} (hlist : Usable list) :
    (grow list).Right ↔ (grow list).Fits := by
  obtain ⟨slots, hitems, hcount, hfits⟩ := hlist
  have hsucc : (list.count + 1) % sizeMod = list.count + 1 :=
    succ_mod (Nat.lt_of_le_of_lt (Nat.mul_le_mul_left _ hcount) hfits)
  simp only [Right, run, hsucc, Fits, request, Reallocates]
  by_cases hroom : list.count + 1 ≤ list.capacity
  · refine ⟨fun _ => .inl hroom, fun _ alloc => ⟨some list, ?_, fun list' hout => ?_⟩⟩
    · rw [ensureCapacity, if_pos hroom, Option.map_some, if_neg Int.one_ne_zero]
    · obtain rfl := Option.some.inj hout
      exact ⟨hroom, fun hfull => absurd hroom (Nat.not_le.mpr hfull)⟩
  · rw [Nat.not_le] at hroom
    constructor
    · intro hright
      obtain ⟨out, hrun, hgrown⟩ := hright (plentyAlloc code)
      obtain ⟨⟨ret, grown⟩, hensure, rfl⟩ := Option.map_eq_some_iff.mp hrun
      obtain ⟨hret, hreaches⟩ := reaches_of_ensureCapacity hitems hroom hensure
      exact .inr (hreaches ((hgrown grown (if_neg hret)).2 hroom))
    · intro hmay alloc
      have hreaches := hmay.resolve_left (Nat.not_le.mpr hroom)
      obtain ⟨ret, grown, hensure, hgrown⟩ := ensureCapacity_meets hitems hroom hreaches alloc
      refine ⟨_, by rw [hensure, Option.map_some], fun list' hout => ?_⟩
      split_ifs at hout with hret
      obtain rfl := Option.some.inj hout
      exact ⟨(hgrown hret).1, fun _ => (hgrown hret).2⟩

end SizeCall

end ListCode

open ListCode

/-- **A call that asks for a capacity gets it, or fails, exactly if the request does not wrap.** -/
theorem right_iff_fits (m : ListModule) {call : SizeCall m.code} (hready : call.Ready) :
    call.Right ↔ call.Fits := by
  cases call with
  | create initialCapacity => exact SizeCall.right_create_iff initialCapacity
  | resize list newCapacity => exact SizeCall.right_resize_iff hready newCapacity
  | grow list => exact SizeCall.right_grow_iff hready

/-- A full list of one slot. -/
theorem right_iff_fits_full :
    (SizeCall.grow (listOf [([CChar.star], ())] 0 : stringList.Items)).Right ↔
      (SizeCall.grow (listOf [([CChar.star], ())] 0 : stringList.Items)).Fits :=
  right_iff_fits .string ⟨_, rfl, Nat.le_refl 1, by decide⟩

/-- `string_list_create` with a request that is more than half the address space: the doubling
loop never ends. -/
theorem not_right_endless :
    (∀ fuel, growCapacity (65 + fuel) listDefaultCapacity 0x8000000000000001 = none) ∧
      ¬ (SizeCall.create 0x8000000000000001 : SizeCall stringList).Right := by
  have hloops : growCapacity 65 listDefaultCapacity 0x8000000000000001 = none := by decide
  refine ⟨growCapacity_endless (by decide) hloops, fun hright => ?_⟩
  obtain ⟨out, hrun, -⟩ := hright (plentyAlloc stringList)
  have hnone : (SizeCall.create 0x8000000000000001 : SizeCall stringList).run
      (plentyAlloc stringList) = none := by
    have hensure : stringList.ensureCapacity ⟨0, 0, some []⟩ 0x8000000000000001
        (plentyAlloc stringList) = none := by
      rw [ensureCapacity, if_neg (Nat.not_succ_le_zero _), startCapacity, if_pos rfl, hloops]
      rfl
    have hmalloc : (plentyAlloc stringList).malloc = true := rfl
    rw [SizeCall.run, ListCode.create, if_pos hmalloc, if_pos (Nat.succ_pos _), hensure,
      Option.map_none]
  rw [hnone] at hrun
  cases hrun

end BasC
