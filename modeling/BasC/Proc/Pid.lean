/-
# The parent of a process

`getppidof` scans `/proc/PID/stat` with the format `%d %s %c %d`. The second field is the
name of the process in parentheses, and a name may have blanks in it, while `%s` stops at
the first. This module determines the names with which the fourth field is still the
parent.
-/

import BasC.Base.Scanf

namespace BasC

open CChar

/-- `PATH_MAX`. -/
def pathMax : ℕ := 4096

/-- The path `/proc/%d/stat`. -/
def statPath (pid : ℤ) : CString := cstr "/proc/" ++ decimal pid ++ cstr "/stat"

/-- The format `%d %s %c %d`, with `char comm[PATH_MAX]`. -/
def statFormat : List ScanDirective :=
  [.int, .space, .word pathMax, .space, .char, .space, .int]

/-- `getppidof`, by the contents of the files that can be opened. It is undefined when the
scan is, and when the scan does not come to `ppid`. -/
def getppidof (fopen : CString → Option CString) (pid : ℤ) : Option ℤ :=
  match fopen (statPath pid) with
  | none => some (-1)
  | some text => (scanf statFormat text).bind fun values => values[3]?.bind ScanValue.int?

/-- A letter. -/
def isLetter (c : CChar) : Bool :=
  (65 ≤ c.toNat && c.toNat ≤ 90) || (97 ≤ c.toNat && c.toNat ≤ 122)

/-- A line `pid (comm) state ppid ...`. -/
structure StatLine where
  pid : ℤ
  comm : CString
  state : CChar
  ppid : ℤ
  rest : CString
  pid_fits : FitsInt pid
  comm_line : newline ∉ comm
  state_letter : isLetter state = true
  ppid_fits : FitsInt ppid
  rest_ends : EndsNumber rest

namespace StatLine

/-- The fields behind the name, with the parenthesis that closes it. -/
def behindComm (line : StatLine) : CString :=
  closeParen :: blank :: line.state :: blank :: (decimal line.ppid ++ line.rest)

/-- The text of the line. -/
def text (line : StatLine) : CString :=
  decimal line.pid ++ blank :: openParen :: (line.comm ++ line.behindComm)

end StatLine

/-- The first word of a name. -/
def firstWord (comm : CString) : CString := comm.takeWhile isWordByte

/-- What stands behind the first word of a name, without the white space between. -/
def behindFirstWord (comm : CString) : CString := skipSpaces (comm.dropWhile isWordByte)

/-- The fourth field that the scan finds: in a name of several words, it is looked for
behind the first letter of the second. -/
def scannedParent (comm : CString) (ppid : ℤ) : Option ℤ :=
  if comm.dropWhile isWordByte = [] then
    if comm.length + 2 < pathMax then some ppid else none
  else if (firstWord comm).length + 1 < pathMax then
    (scanInt (behindFirstWord comm).tail).bind fun out =>
      if FitsInt out.1 then some out.1 else none
  else none

/-- The names that do not disturb the scan: a single word that the array can hold; or a
first word that it can hold, with one letter and the parent itself behind it. -/
def CommScans (comm : CString) (ppid : ℤ) : Prop :=
  (comm.dropWhile isWordByte = [] ∧ comm.length + 2 < pathMax) ∨
    (comm.dropWhile isWordByte ≠ [] ∧ (firstWord comm).length + 1 < pathMax ∧
      (scanInt (behindFirstWord comm).tail).map Prod.fst = some ppid)

theorem scannedParent_eq_some_iff {comm : CString} {ppid : ℤ} (hfits : FitsInt ppid) :
    scannedParent comm ppid = some ppid ↔ CommScans comm ppid := by
  unfold scannedParent CommScans
  by_cases hsingle : comm.dropWhile isWordByte = []
  · simp [hsingle]
  · rw [if_neg hsingle]
    by_cases hlength : (firstWord comm).length + 1 < pathMax
    · rw [if_pos hlength]
      constructor
      · intro hsome
        obtain ⟨out, hout, hvalue⟩ := Option.bind_eq_some_iff.mp hsome
        refine .inr ⟨hsingle, hlength, ?_⟩
        rw [hout, Option.map_some]
        split at hvalue
        · exact hvalue
        · cases hvalue
      · rintro (⟨hnil, -⟩ | ⟨-, -, hscan⟩)
        · exact absurd hnil hsingle
        · obtain ⟨out, hout, rfl⟩ := Option.map_eq_some_iff.mp hscan
          rw [hout, Option.bind_some, if_pos hfits]
    · simp [hsingle, hlength]

theorem isspace_of_isLetter {c : CChar} (hletter : isLetter c = true) : isspace c = false := by
  simp only [isLetter, Bool.or_eq_true, Bool.and_eq_true, decide_eq_true_eq] at hletter
  simp only [isspace, Bool.or_eq_false_iff, Bool.and_eq_false_iff, beq_eq_false_iff_ne,
    decide_eq_false_iff_not]
  omega

/-- A letter does not begin a number. -/
theorem scanInt_of_isLetter {c : CChar} (hletter : isLetter c = true) (rest : CString) :
    scanInt (c :: rest) = none := by
  have hdash : c ≠ dash := by
    rintro rfl
    exact absurd hletter (by decide)
  have hplus : c ≠ plus := by
    rintro rfl
    exact absurd hletter (by decide)
  have hdigit : isdigit c = false := by
    simp only [isLetter, Bool.or_eq_true, Bool.and_eq_true, decide_eq_true_eq] at hletter
    simp only [isdigit, Bool.and_eq_false_iff, decide_eq_false_iff_not]
    omega
  rw [scanInt_cons (isspace_of_isLetter hletter), if_neg hdash, if_neg hplus, scanSigned,
    scanDigits]
  simp [hdigit]

/-- The fields behind a name without blanks. -/
theorem scanf_fields (line : StatLine) :
    scanf [.space, .char, .space, .int]
        (blank :: line.state :: blank :: (decimal line.ppid ++ line.rest)) =
      some [.char line.state, .int line.ppid] := by
  have hstate : isspace line.state = false := isspace_of_isLetter line.state_letter
  have hppid : scanf [.space, .int] (blank :: (decimal line.ppid ++ line.rest)) =
      some [.int line.ppid] := by
    rw [scanf_space_int, scanf_int_cons_of_isspace _ isspace_blank,
      scanf_int_decimal _ line.ppid_fits line.rest_ends]
    rfl
  rw [scanf, skipSpaces_cons_of_isspace isspace_blank, skipSpaces_cons_of_not_isspace hstate,
    scanf_char_cons, hppid]
  rfl

/-- The letters of a word in front of the first blank. -/
theorem isspace_of_mem_firstWord {comm : CString} {c : CChar} (hc : c ∈ firstWord comm) :
    isspace c = false := by
  have hletter : isWordByte c = true := List.mem_takeWhile_imp hc
  rwa [isWordByte, Bool.not_eq_true'] at hletter

/-- What the scan makes of the name and of the fields behind it. -/
def scanComm (line : StatLine) : Option (List ScanValue) :=
  scanf [.word pathMax, .space, .char, .space, .int] (openParen :: (line.comm ++ line.behindComm))

/-- A name without blanks is one word, with its parentheses. -/
theorem scanComm_of_single (line : StatLine) (hsingle : line.comm.dropWhile isWordByte = []) :
    scanComm line =
      if line.comm.length + 2 < pathMax then
        some [.word (openParen :: (line.comm ++ [closeParen])), .char line.state, .int line.ppid]
      else none := by
  have hcomm : firstWord line.comm = line.comm := by
    have happend := List.takeWhile_append_dropWhile (p := isWordByte) (l := line.comm)
    rwa [hsingle, List.append_nil] at happend
  have hletters : ∀ c ∈ openParen :: (line.comm ++ [closeParen]), isspace c = false := by
    intro c hc
    rcases List.mem_cons.mp hc with rfl | hc
    · decide
    · rcases List.mem_append.mp hc with hc | hc
      · exact isspace_of_mem_firstWord (hcomm.symm ▸ hc)
      · rw [List.mem_singleton.mp hc]
        decide
  have hsplit : openParen :: (line.comm ++ line.behindComm) =
      (openParen :: (line.comm ++ [closeParen])) ++
        blank :: line.state :: blank :: (decimal line.ppid ++ line.rest) := by
    simp [StatLine.behindComm]
  have hblank : ∀ c ∈ (blank :: line.state :: blank ::
      (decimal line.ppid ++ line.rest)).head?, isspace c = true := by
    intro c hc
    rw [← Option.some.inj hc]
    exact isspace_blank
  have hlength : (openParen :: (line.comm ++ [closeParen])).length = line.comm.length + 2 := by
    simp
  rw [scanComm, hsplit, scanf_word _ (List.cons_ne_nil _ _) hletters hblank, hlength, scanf_fields]
  rfl

/-- A name of several words: the state is looked for behind the first. -/
theorem scanComm_of_several (line : StatLine) (hseveral : line.comm.dropWhile isWordByte ≠ []) :
    scanComm line =
      if (firstWord line.comm).length + 1 < pathMax then
        (scanf [.char, .space, .int] (behindFirstWord line.comm ++ line.behindComm)).map
          (.word (openParen :: firstWord line.comm) :: ·)
      else none := by
  have hletters : ∀ c ∈ openParen :: firstWord line.comm, isspace c = false := by
    intro c hc
    rcases List.mem_cons.mp hc with rfl | hc
    · decide
    · exact isspace_of_mem_firstWord hc
  have hsplit : openParen :: (line.comm ++ line.behindComm) =
      (openParen :: firstWord line.comm) ++
        (line.comm.dropWhile isWordByte ++ line.behindComm) := by
    have happend := List.takeWhile_append_dropWhile (p := isWordByte) (l := line.comm)
    rw [List.cons_append, ← List.append_assoc, firstWord, happend]
  obtain ⟨b, behind, hbehind⟩ := List.exists_cons_of_ne_nil hseveral
  have hblank : ∀ c ∈ (line.comm.dropWhile isWordByte ++ line.behindComm).head?,
      isspace c = true := by
    intro c hc
    have hhead := List.head?_dropWhile_not isWordByte line.comm
    rw [hbehind] at hc hhead
    obtain rfl : b = c := Option.some.inj hc
    simpa [isWordByte] using hhead
  have hskip : skipSpaces (line.comm.dropWhile isWordByte ++ line.behindComm) =
      behindFirstWord line.comm ++ line.behindComm :=
    skipSpaces_append_cons _ (by decide) _
  rw [scanComm, hsplit, scanf_word _ (List.cons_ne_nil _ _) hletters hblank, scanf, hskip]
  rfl

/-- The number behind a letter of the name is scanned up to the parenthesis. -/
theorem scanf_behind_letter (line : StatLine) (more : CString) :
    scanf [.space, .int] (more ++ line.behindComm) =
      (scanInt more).elim (some []) fun out =>
        if FitsInt out.1 then some [.int out.1] else none := by
  have hscan : scanInt (more ++ line.behindComm) =
      (scanInt more).map fun out => (out.1, out.2 ++ line.behindComm) :=
    scanInt_append_of_ends more (by decide) (by decide) (by decide) (by decide)
  rw [scanf_space_int, scanf, hscan]
  cases scanInt more <;> rfl

/-- **What `getppidof` returns.** -/
theorem getppidof_of_line {fopen : CString → Option CString} {line : StatLine}
    (hopen : fopen (statPath line.pid) = some line.text) :
    getppidof fopen line.pid = scannedParent line.comm line.ppid := by
  have hends : EndsNumber (blank :: openParen :: (line.comm ++ line.behindComm)) := by
    intro c hc
    rw [← Option.some.inj hc]
    decide
  have hscan : scanf statFormat line.text = (scanComm line).map (.int line.pid :: ·) := by
    rw [statFormat, StatLine.text, scanf_int_decimal _ line.pid_fits hends, scanf,
      skipSpaces_cons_of_isspace isspace_blank, skipSpaces_cons_of_not_isspace (by decide)]
    rfl
  rw [getppidof, hopen]
  simp only
  rw [hscan]
  unfold scannedParent
  by_cases hsingle : line.comm.dropWhile isWordByte = []
  · rw [if_pos hsingle, scanComm_of_single line hsingle]
    split <;> rfl
  · rw [if_neg hsingle, scanComm_of_several line hsingle]
    split
    · cases hbehind : behindFirstWord line.comm with
      | nil =>
          have hnone : scanInt (blank :: line.state :: blank ::
              (decimal line.ppid ++ line.rest)) = none := by
            rw [scanInt_cons_of_isspace isspace_blank, scanInt_of_isLetter line.state_letter]
          rw [List.nil_append, StatLine.behindComm, scanf_char_cons, scanf_space_int,
            scanf_int_of_none _ hnone]
          rfl
      | cons c more =>
          rw [List.cons_append, scanf_char_cons, scanf_behind_letter, List.tail_cons]
          cases scanInt more with
          | none => rfl
          | some out =>
              rw [Option.elim_some, Option.bind_some]
              split <;> rfl
    · rfl

/-- **The names with which the parent is found.** -/
theorem getppidof_eq_ppid_iff {fopen : CString → Option CString} (line : StatLine)
    (hopen : fopen (statPath line.pid) = some line.text) :
    getppidof fopen line.pid = some line.ppid ↔ CommScans line.comm line.ppid := by
  rw [getppidof_of_line hopen]
  exact scannedParent_eq_some_iff line.ppid_fits

/-- The line `2 (comm) S 1 2`. -/
def secondLine (comm : CString) (hline : newline ∉ comm) : StatLine where
  pid := 2
  comm := comm
  state := ⟨83, by decide⟩
  ppid := 1
  rest := cstr " 2"
  pid_fits := by decide
  comm_line := hline
  state_letter := by decide
  ppid_fits := by decide
  rest_ends := by decide +kernel

/-- The line `2 (bash) S 1 2`. -/
theorem getppidof_eq_ppid_bash :
    getppidof (fun _ => some (secondLine (cstr "bash") (by decide +kernel)).text) 2 = some 1 ↔
      CommScans (cstr "bash") 1 :=
  @getppidof_eq_ppid_iff (fun _ => some (secondLine (cstr "bash") (by decide +kernel)).text)
    (secondLine (cstr "bash") (by decide +kernel)) rfl

/-- The blank in the name of `2 (tmux: server) S 1 2` hides the parent. -/
theorem not_getppidof_tmux :
    ¬ ∀ (fopen : CString → Option CString) (line : StatLine),
      fopen (statPath line.pid) = some line.text →
        getppidof fopen line.pid = some line.ppid := by
  intro hall
  have hline := hall (fun _ => some (secondLine (cstr "tmux: server") (by decide +kernel)).text)
    (secondLine (cstr "tmux: server") (by decide +kernel)) rfl
  exact absurd hline (by decide +kernel)

end BasC
