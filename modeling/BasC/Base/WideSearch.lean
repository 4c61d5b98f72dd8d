/-
# Searching a wide string

`wstring_strstr` with the pointers that it is given and every unit that it reads. The strings
are in arrays, where they may overlap, and a read outside an array is undefined. The lengths
and indices are those of a `size_t`; the arrays are small enough that none of them wraps.
-/

import BasC.Base.ItemList
import BasC.Base.Memory
import BasC.Base.StringOrder
import BasC.Lib.Occurrence
import BasC.Lib.Traced

namespace BasC

open Lib Traced

/-- A `uint16_t *` that is not `NULL`: an array of units with an index in it. -/
abbrev WPointer := CPointer

/-- The `uint16_t` arrays. The number of bytes of an array is a `size_t`. -/
structure WideMemory where
  units : ℕ → List UInt16
  fits : ∀ object, 2 * (units object).length < sizeMod

/-- The read of `str[index]`. -/
structure WideRead where
  str : WPointer
  index : ℕ

namespace WideMemory

section Search

variable (memory : WideMemory)

/-- `str[index]`. -/
def readUnit (str : WPointer) (index : ℕ) : Traced PUnit WideRead UInt16 :=
  match (memory.units str.object)[str.offset + index]? with
  | some unit => do
      emit ⟨str, index⟩
      pure unit
  | none => halt ⟨str, index⟩

/-- The loop of `wstring_len`, over no more units than there are in the array. -/
def lenFrom (str : WPointer) : ℕ → ℕ → Traced PUnit WideRead ℕ
  | 0, len => halt ⟨str, len⟩
  | left + 1, len => do
      let unit ← memory.readUnit str len
      if unit ≠ 0 then lenFrom str left ((len + 1) % sizeMod) else pure len

/-- `wstring_len`. -/
def wstringLen : Option WPointer → Traced PUnit WideRead ℕ
  | none => pure 0
  | some str => memory.lenFrom str (memory.units str.object).length 0

/-- The inner loop of `wstring_strstr` from `j` on: what becomes of `match`. -/
def matchFrom (haystack needle : WPointer) (i : ℕ) : ℕ → ℕ → Traced PUnit WideRead Bool
  | 0, _ => pure true
  | rounds + 1, j => do
      let unit ← memory.readUnit haystack ((i + j) % sizeMod)
      let wanted ← memory.readUnit needle j
      if unit ≠ wanted then pure false
      else matchFrom haystack needle i rounds ((j + 1) % sizeMod)

/-- The outer loop of `wstring_strstr` from `i` on. -/
def searchFrom (haystack needle : WPointer) (needleLen : ℕ) :
    ℕ → ℕ → Traced PUnit WideRead (Option WPointer)
  | 0, _ => pure none
  | rounds + 1, i => do
      let found ← memory.matchFrom haystack needle i needleLen 0
      if found then pure (some (haystack.add i))
      else searchFrom haystack needle needleLen rounds ((i + 1) % sizeMod)

/-- `wstring_strstr`. -/
def wstringStrstr (haystack needle : Option WPointer) : Traced PUnit WideRead (Option WPointer) :=
  match haystack, needle with
  | some haystack, some needle => do
      let first ← memory.readUnit needle 0
      if first = 0 then pure (some haystack)
      else do
        let needleLen ← memory.wstringLen (some needle)
        let haystackLen ← memory.wstringLen (some haystack)
        if haystackLen < needleLen then pure none
        else
          -- `i <= haystack_len - needle_len`
          let last := (haystackLen + (sizeMod - needleLen)) % sizeMod
          memory.searchFrom haystack needle needleLen (last + 1) 0
  | haystack, _ => pure haystack

end Search

/-- The wide string at the pointer, which ends at a NUL. -/
def Holds (memory : WideMemory) (p : WPointer) (text : WString) : Prop :=
  ∃ behind, (memory.units p.object).drop p.offset = text.map (fun c => c.1) ++ 0 :: behind

/-- The unit at an index of a wide string, or its NUL. -/
def unitAt (text : WString) (index : ℕ) : UInt16 := (text[index]?.map fun c => c.1).getD 0

/-- The units that are read are those of the two strings with their terminators. -/
def ReadsWithin (haystack needle : WPointer) (text wanted : WString) (reads : List WideRead) :
    Prop :=
  ∀ read ∈ reads, (read.str = haystack ∧ read.index ≤ text.length) ∨
    (read.str = needle ∧ read.index ≤ wanted.length)

/-- The pointer is to the first occurrence, and `NULL` if there is none. -/
structure FindsFirst (haystack : WPointer) (wanted text : WString) (found : Option WPointer) :
    Prop where
  first : ∀ index, found = some (haystack.add index) ↔
    IsLeast {index | OccursAt wanted text index} index
  missing : found = none ↔ ¬ wanted <:+: text
  empty : wanted = [] → found = some haystack

section Strings

variable {memory : WideMemory} {p : WPointer} {text : WString}

theorem unitAt_eq_zero_iff (text : WString) (index : ℕ) :
    unitAt text index = 0 ↔ text.length ≤ index := by
  rw [unitAt]
  cases hunit : text[index]? with
  | none => exact iff_of_true rfl (List.getElem?_eq_none_iff.mp hunit)
  | some c =>
      have hlt := (List.getElem?_eq_some_iff.mp hunit).1
      exact iff_of_false c.2 (Nat.not_le.mpr hlt)

theorem Holds.getElem? (hp : memory.Holds p text) {index : ℕ} (hindex : index ≤ text.length) :
    (memory.units p.object)[p.offset + index]? = some (unitAt text index) := by
  obtain ⟨behind, hunits⟩ := hp
  rw [← List.getElem?_drop, hunits, unitAt]
  rcases Nat.lt_or_eq_of_le hindex with hlt | rfl
  · rw [List.getElem?_append_left (by rwa [List.length_map]), List.getElem?_map,
      List.getElem?_eq_getElem hlt]
    rfl
  · rw [List.getElem?_append_right (by rw [List.length_map]), List.length_map, Nat.sub_self,
      List.getElem?_eq_none (Nat.le_refl _)]
    rfl

/-- The string and its NUL are in the array. -/
theorem Holds.length_lt (hp : memory.Holds p text) :
    text.length < (memory.units p.object).length := by
  have hunit := hp.getElem? (Nat.le_refl text.length)
  have hlt := (List.getElem?_eq_some_iff.mp hunit).1
  omega

theorem Holds.length_lt_sizeMod (hp : memory.Holds p text) : text.length + 1 < sizeMod := by
  have hlt := hp.length_lt
  have hfits := memory.fits p.object
  omega

/-- Two strings have the same unit where they have the same character. -/
theorem unitAt_eq_iff {wanted : WString} {i j : ℕ} (hi : i < text.length)
    (hj : j < wanted.length) : unitAt text i = unitAt wanted j ↔ text[i] = wanted[j] := by
  rw [unitAt, unitAt, List.getElem?_eq_getElem hi, List.getElem?_eq_getElem hj]
  exact Subtype.ext_iff.symm

end Strings

section Loops

variable {memory : WideMemory} {p haystack needle : WPointer} {text wanted : WString}

theorem composable_readsWithin (haystack needle : WPointer) (text wanted : WString) :
    Composable (ReadsWithin haystack needle text wanted) where
  nil := List.forall_mem_nil _
  append := fun hfirst hsecond => List.forall_mem_append.mpr ⟨hfirst, hsecond⟩

theorem readsWithin_haystack {index : ℕ} (hindex : index ≤ text.length) :
    ReadsWithin haystack needle text wanted [⟨haystack, index⟩] :=
  List.forall_mem_singleton.mpr (.inl ⟨rfl, hindex⟩)

theorem readsWithin_needle {index : ℕ} (hindex : index ≤ wanted.length) :
    ReadsWithin haystack needle text wanted [⟨needle, index⟩] :=
  List.forall_mem_singleton.mpr (.inr ⟨rfl, hindex⟩)

theorem Holds.readUnit_returns {P : List WideRead → Prop} (hp : memory.Holds p text)
    {index : ℕ} (hindex : index ≤ text.length) (hread : P [⟨p, index⟩]) :
    (memory.readUnit p index).Returns P ⟨⟩ (unitAt text index) ⟨⟩ := by
  unfold readUnit
  rw [hp.getElem? hindex]
  exact ⟨rfl, hread⟩

/-- From a place in the string on, the loop of `wstring_len` gets to its end. -/
theorem Holds.lenFrom_returns {P : List WideRead → Prop} (hP : Composable P)
    (hp : memory.Holds p text) (hread : ∀ index ≤ text.length, P [⟨p, index⟩]) (left len : ℕ)
    (hlen : len ≤ text.length) (hleft : text.length < len + left) :
    (memory.lenFrom p left len).Returns P ⟨⟩ text.length ⟨⟩ := by
  induction left generalizing len with
  | zero => omega
  | succ left ih =>
      refine hP.returns_bind (hp.readUnit_returns hlen (hread len hlen)) ?_
      by_cases hend : text.length ≤ len
      · obtain rfl : len = text.length := Nat.le_antisymm hlen hend
        rw [if_neg (not_not.mpr ((unitAt_eq_zero_iff text _).mpr hend))]
        exact hP.returns_pure _ _
      · have hnext : len + 1 < sizeMod := by
          have hlt := hp.length_lt_sizeMod
          omega
        rw [if_pos (mt (unitAt_eq_zero_iff text len).mp hend), Nat.mod_eq_of_lt hnext]
        exact ih (len + 1) (by omega) (by omega)

theorem Holds.wstringLen_returns {P : List WideRead → Prop} (hP : Composable P)
    (hp : memory.Holds p text) (hread : ∀ index ≤ text.length, P [⟨p, index⟩]) :
    (memory.wstringLen (some p)).Returns P ⟨⟩ text.length ⟨⟩ := by
  refine hp.lenFrom_returns hP hread _ 0 (Nat.zero_le _) ?_
  rw [Nat.zero_add]
  exact hp.length_lt

/-- The inner loop compares what is left of the needle with the text. -/
theorem matchFrom_returns (hhaystack : memory.Holds haystack text)
    (hneedle : memory.Holds needle wanted) {i : ℕ} (hi : i + wanted.length ≤ text.length)
    (rounds j : ℕ) (hrounds : j + rounds = wanted.length) :
    (memory.matchFrom haystack needle i rounds j).Returns
      (ReadsWithin haystack needle text wanted) ⟨⟩
      ((wanted.drop j).isPrefixOf (text.drop (i + j))) ⟨⟩ := by
  have hP := composable_readsWithin haystack needle text wanted
  have hsize := hhaystack.length_lt_sizeMod
  induction rounds generalizing j with
  | zero =>
      have hdone : wanted.drop j = [] := List.drop_eq_nil_of_le (by omega)
      rw [hdone]
      exact hP.returns_pure _ _
  | succ rounds ih =>
      have hj : j < wanted.length := by omega
      have hij : i + j < text.length := by omega
      rw [List.drop_eq_getElem_cons hj, List.drop_eq_getElem_cons hij, List.isPrefixOf_cons_cons]
      unfold matchFrom
      rw [Nat.mod_eq_of_lt (by omega), Nat.mod_eq_of_lt (by omega)]
      refine hP.returns_bind (hhaystack.readUnit_returns (Nat.le_of_lt hij)
        (readsWithin_haystack (Nat.le_of_lt hij))) ?_
      refine hP.returns_bind (hneedle.readUnit_returns (Nat.le_of_lt hj)
        (readsWithin_needle (Nat.le_of_lt hj))) ?_
      by_cases hsame : wanted[j] = text[i + j]
      · rw [if_neg (not_not.mpr ((unitAt_eq_iff hij hj).mpr hsame.symm)), beq_iff_eq.mpr hsame,
          Bool.true_and]
        exact ih (j + 1) (by omega)
      · rw [if_pos fun hunits => hsame ((unitAt_eq_iff hij hj).mp hunits).symm,
          beq_eq_false_iff_ne.mpr hsame, Bool.false_and]
        exact hP.returns_pure _ _

/-- The outer loop tries one place after the other. -/
theorem searchFrom_returns (hhaystack : memory.Holds haystack text)
    (hneedle : memory.Holds needle wanted) (rounds i : ℕ)
    (hi : i + rounds ≤ text.length + 1 - wanted.length) :
    (memory.searchFrom haystack needle wanted.length rounds i).Returns
      (ReadsWithin haystack needle text wanted) ⟨⟩
      (((List.range' i rounds).find? fun index =>
        wanted.isPrefixOf (text.drop index)).map haystack.add) ⟨⟩ := by
  have hP := composable_readsWithin haystack needle text wanted
  have hsize := hhaystack.length_lt_sizeMod
  induction rounds generalizing i with
  | zero => exact hP.returns_pure _ _
  | succ rounds ih =>
      have hmatch := matchFrom_returns hhaystack hneedle (i := i) (by omega) wanted.length 0
        (Nat.zero_add _)
      rw [List.drop_zero, Nat.add_zero] at hmatch
      refine hP.returns_bind hmatch ?_
      rw [List.range'_succ, List.find?_cons]
      cases hfound : wanted.isPrefixOf (text.drop i) with
      | true => exact hP.returns_pure _ _
      | false =>
          rw [if_neg Bool.false_ne_true, Nat.mod_eq_of_lt (by omega)]
          exact ih (i + 1) (by omega)

/-- The loop bound is the difference of the lengths. -/
theorem sub_mod_sizeMod {m n : ℕ} (hn : n ≤ m) (hm : m < sizeMod) :
    (m + (sizeMod - n)) % sizeMod = m - n := by
  rw [← Nat.add_sub_assoc (by omega), Nat.add_comm, Nat.add_sub_assoc hn, Nat.add_mod_left,
    Nat.mod_eq_of_lt (by omega)]

/-- The search returns the pointer to the first occurrence. -/
theorem wstringStrstr_returns (hhaystack : memory.Holds haystack text)
    (hneedle : memory.Holds needle wanted) :
    (memory.wstringStrstr (some haystack) (some needle)).Returns
      (ReadsWithin haystack needle text wanted) ⟨⟩
      ((firstOccurrence wanted text).map haystack.add) ⟨⟩ := by
  have hP := composable_readsWithin haystack needle text wanted
  refine hP.returns_bind (hneedle.readUnit_returns (Nat.zero_le _)
    (readsWithin_needle (Nat.zero_le _))) ?_
  by_cases hempty : wanted.length = 0
  · obtain rfl := List.eq_nil_of_length_eq_zero hempty
    have hfirst : unitAt [] 0 = 0 := rfl
    rw [if_pos hfirst, firstOccurrence_nil]
    exact hP.returns_pure _ _
  · have hfirst : unitAt wanted 0 ≠ 0 := by
      rw [Ne, unitAt_eq_zero_iff]
      omega
    rw [if_neg hfirst]
    refine hP.returns_bind (hneedle.wstringLen_returns hP fun _ => readsWithin_needle) ?_
    refine hP.returns_bind (hhaystack.wstringLen_returns hP fun _ => readsWithin_haystack) ?_
    by_cases hlonger : text.length < wanted.length
    · have hnowhere : text.length + 1 - wanted.length = 0 := by omega
      rw [if_pos hlonger, firstOccurrence, hnowhere]
      exact hP.returns_pure _ _
    · have hsize := hhaystack.length_lt_sizeMod
      have hlast : text.length - wanted.length + 1 = text.length + 1 - wanted.length := by omega
      rw [if_neg hlonger, sub_mod_sizeMod (by omega) (by omega), firstOccurrence, ← hlast,
        List.range_eq_range']
      exact searchFrom_returns hhaystack hneedle _ 0 (by omega)

end Loops

section FirstOccurrence

variable {memory : WideMemory} {haystack needle : WPointer} {text wanted : WString}

theorem findsFirst_firstOccurrence (haystack : WPointer) (wanted text : WString) :
    FindsFirst haystack wanted text ((firstOccurrence wanted text).map haystack.add) where
  first := by
    intro index
    rw [← firstOccurrence_eq_some_iff]
    exact (Option.map_injective haystack.add_injective).eq_iff' rfl
  missing := by
    rw [Option.map_eq_none_iff]
    exact firstOccurrence_eq_none_iff
  empty := by
    rintro rfl
    rw [firstOccurrence_nil]
    rfl

/-- The question mark as a wide unit. -/
def questionMark : WChar := ⟨63, by decide⟩

/-- An array with `**?` in it. -/
def starred : WideMemory where
  units := fun _ => [42, 42, 63, 0]
  fits := fun _ => by decide

/-- **`wstring_strstr` finds the first occurrence.** It reads no unit behind a terminator. -/
theorem wstringStrstr_findsFirst (hhaystack : memory.Holds haystack text)
    (hneedle : memory.Holds needle wanted) :
    ∃ reads found,
      memory.wstringStrstr (some haystack) (some needle) ⟨⟩ = (reads, some (found, ⟨⟩)) ∧
        FindsFirst haystack wanted text found ∧
        ReadsWithin haystack needle text wanted reads := by
  have hreturns := wstringStrstr_returns hhaystack hneedle
  exact ⟨_, _, Prod.ext rfl hreturns.result_eq, findsFirst_firstOccurrence haystack wanted text,
    hreturns.trace_has⟩

/-- The needle is the end of the haystack. -/
theorem wstringStrstr_findsFirst_starred :
    ∃ reads found, starred.wstringStrstr (some ⟨0, 0⟩) (some ⟨0, 1⟩) ⟨⟩ =
        (reads, some (found, ⟨⟩)) ∧
      FindsFirst ⟨0, 0⟩ [WChar.star, questionMark]
        [WChar.star, WChar.star, questionMark] found ∧
      ReadsWithin ⟨0, 0⟩ ⟨0, 1⟩ [WChar.star, WChar.star, questionMark]
        [WChar.star, questionMark] reads :=
  wstringStrstr_findsFirst ⟨[], rfl⟩ ⟨[], rfl⟩

end FirstOccurrence

end WideMemory

end BasC
