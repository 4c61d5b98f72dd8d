/-
# The path of the executable

`get_self_exe_path` promises what `snprintf` does: a result that is not less than the size
of the buffer means that the path did not fit. On Linux it returns the number of bytes that
`readlink` has copied, and it lets `readlink` copy one byte less than the size, so the
result is always less.
-/

import BasC.Base.CString

namespace BasC

/-- `readlink` of `/proc/self/exe`. Without room it fails. -/
def readlink (link : Option CString) (bufsiz : ℕ) : Option CString :=
  if bufsiz = 0 then none else link.map (·.take bufsiz)

/-- `get_self_exe_path`: the value returned, and the string in the buffer. -/
def getSelfExePath (link : Option CString) (hasBuffer : Bool) (size : ℕ) : ℕ × CString :=
  if hasBuffer = false ∨ size = 0 then (1024, [])
  else
    match readlink link (size - 1) with
    | none => (0, [])
    | some text => (text.length, text)

/-- `sizeof(stack_buf)`. -/
def stackBufSize : ℕ := 1024

/-- `self_exe_dup`, by the outcomes of `str_dup` and `malloc`; `none` is `NULL`. -/
def selfExeDup (link : Option CString) (strDup malloc : Bool) : Option CString :=
  let (needed, stackBuf) := getSelfExePath link true stackBufSize
  if needed = 0 then none
  else if needed < stackBufSize then
    if strDup then some stackBuf else none
  else if malloc then
    let (finalLen, heapBuf) := getSelfExePath link true (needed + 1)
    if finalLen = 0 ∨ needed < finalLen then none else some heapBuf
  else none

/-- A path that does not fit is reported: by a failure, or by a result not less than the size
of the buffer. -/
def ReportsTruncation (path : CString) (size : ℕ) : Prop :=
  size ≤ path.length →
    (getSelfExePath (some path) true size).1 = 0 ∨ size ≤ (getSelfExePath (some path) true size).1

/-- `self_exe_dup` returns the complete path or `NULL`. -/
def DupsComplete (path : CString) : Prop :=
  ∀ strDup malloc, selfExeDup (some path) strDup malloc = none ∨
    selfExeDup (some path) strDup malloc = some path

/-- What is returned for a buffer with room for a byte and a NUL. -/
theorem getSelfExePath_of_two_le (path : CString) {size : ℕ} (hsize : 2 ≤ size) :
    getSelfExePath (some path) true size =
      ((path.take (size - 1)).length, path.take (size - 1)) := by
  have hbuffer : ¬ (true = false ∨ size = 0) := by
    rintro (hfalse | hzero)
    · cases hfalse
    · omega
  rw [getSelfExePath, if_neg hbuffer, readlink, if_neg (by omega)]
  rfl

theorem reportsTruncation_iff (path : CString) (size : ℕ) :
    ReportsTruncation path size ↔ path.length < size ∨ size ≤ 1 := by
  unfold ReportsTruncation
  rcases Nat.lt_or_ge 1 size with hlarge | hsmall
  · rw [getSelfExePath_of_two_le path hlarge, List.length_take]
    omega
  · refine iff_of_true (fun _ => ?_) (.inr hsmall)
    rcases Nat.le_one_iff_eq_zero_or_eq_one.mp hsmall with rfl | rfl
    · exact .inr (Nat.zero_le _)
    · exact .inl rfl

/-- The second attempt is never made. -/
theorem selfExeDup_eq (path : CString) (strDup malloc : Bool) :
    selfExeDup (some path) strDup malloc =
      if path = [] ∨ strDup = false then none else some (path.take (stackBufSize - 1)) := by
  have hfirst := getSelfExePath_of_two_le path (by decide : 2 ≤ stackBufSize)
  have hless : (path.take (stackBufSize - 1)).length < stackBufSize := by
    rw [List.length_take]
    exact Nat.lt_of_le_of_lt (Nat.min_le_left _ _) (by decide)
  unfold selfExeDup
  rw [hfirst]
  simp only [if_pos hless]
  cases path with
  | nil => rfl
  | cons c path => cases strDup <;> rfl

theorem dupsComplete_iff (path : CString) : DupsComplete path ↔ path.length < stackBufSize := by
  unfold DupsComplete
  simp only [selfExeDup_eq]
  constructor
  · intro hcomplete
    by_contra hlong
    have hne : ¬ (path = [] ∨ true = false) := by
      rintro (rfl | hfalse)
      · exact hlong (by decide)
      · cases hfalse
    rcases hcomplete true true with hnone | hsome
    · rw [if_neg hne] at hnone
      cases hnone
    · rw [if_neg hne] at hsome
      have hlength := congrArg List.length (Option.some.inj hsome)
      rw [List.length_take] at hlength
      unfold stackBufSize at *
      omega
  · intro hfits strDup malloc
    split
    · exact .inl rfl
    · right
      rw [List.take_of_length_le (Nat.le_sub_one_of_lt hfits)]

/-- **When the path of the executable is not truncated.** -/
theorem selfExe_complete_iff (path : CString) (size : ℕ) :
    (ReportsTruncation path size ↔ path.length < size ∨ size ≤ 1) ∧
      (DupsComplete path ↔ path.length < 1024) :=
  ⟨reportsTruncation_iff path size, dupsComplete_iff path⟩

/-- A path of 1024 bytes, and the buffer of `self_exe_dup`. -/
theorem not_selfExe_complete :
    ¬ ∀ (path : CString) (size : ℕ), 1 ≤ size →
      ReportsTruncation path size ∧ DupsComplete path := by
  intro hall
  have hdup := (hall (List.replicate 1024 CChar.slash) 1024 (by decide)).2
  rw [dupsComplete_iff, List.length_replicate] at hdup
  exact absurd hdup (by decide)

end BasC
