/-
# The open files of the process

`dump_fd` goes through `/proc/self/fd`: for each number it reads the link, and scans the lines of
the file in `/proc/self/fdinfo` for its position, flags and mount. A line that is longer than the
array of `fgets` comes in pieces, and each piece is looked at as if it were a line.
-/

import BasC.Log.Lines
import BasC.Proc.ConsoleStatus
import BasC.Proc.TopThreads

namespace BasC

open CChar

def isOctal (c : CChar) : Bool := 48 ≤ c.toNat && c.toNat ≤ 55

/-- The number that octal digits denote. -/
def octalValue (digits : CString) : ℕ := digits.foldl (fun num c => num * 8 + digitValue c) 0

/-- `%o` of `printf`. -/
def octalNat (n : ℕ) : CString :=
  if n < 8 then [CChar.digit n] else octalNat (n / 8) ++ [CChar.digit (n % 8)]

/-- The octal digits at the beginning of a text, by `strtoul` and cut to an `unsigned int`. -/
def scanOctalSigned (sign : ℤ) (text : CString) : Option ℕ :=
  let digits := text.takeWhile isOctal
  if digits = [] then none
  else if 2 ^ 64 ≤ octalValue digits then some ((2 ^ 64 - 1) % 2 ^ 32)
  else some (sign * octalValue digits % 2 ^ 32).toNat

/-- `%o` of `sscanf`. -/
def scanOctal (text : CString) : Option ℕ :=
  match skipSpaces text with
  | [] => none
  | c :: rest =>
      if c = dash then scanOctalSigned (-1) rest
      else if c = plus then scanOctalSigned 1 rest
      else scanOctalSigned 1 (c :: rest)

/-- The `int` of a number that `strtol` has read. -/
def intOfLong (n : ℤ) : ℤ := (max (-2 ^ 63) (min n (2 ^ 63 - 1))).bmod (2 ^ 32)

/-- `atoi`. -/
def atoi (text : CString) : ℤ := (scanInt text).elim 0 fun out => intOfLong out.1

/-- `%-6d` and the like. -/
def padRight (width : ℕ) (text : CString) : CString :=
  text ++ List.replicate (width - text.length) blank

/-- `%12d` and, with zeros, `%06o`. -/
def padLeft (width : ℕ) (c : CChar) (text : CString) : CString :=
  List.replicate (width - text.length) c ++ text

/-- The variables that the lines of a file in `fdinfo` set. -/
structure FdInfo where
  flags : ℕ
  pos : ℕ
  mntId : ℤ
  deriving DecidableEq

def unreadInfo : FdInfo := ⟨0, 0, -1⟩

/-- `while (fgets(line, sizeof(line), f))`. -/
def fgetsLines (stream : CString) : List CString :=
  if _hstream : stream = [] then []
  else
    let line := bounded 256 (strGetline stream).1
    line :: fgetsLines (stream.drop line.length)
termination_by stream.length
decreasing_by
  have hline := List.length_pos_of_ne_nil (strGetline_ne_nil _hstream)
  have hstream := List.length_pos_of_ne_nil _hstream
  simp only [bounded, List.length_take, List.length_drop]
  omega

/-- One round of this loop. -/
def fdLine (info : FdInfo) (line : CString) : FdInfo :=
  match dropWord (cstr "pos:") line with
  | some text => { info with pos := (strtoul text).elim info.pos Prod.fst }
  | none =>
      match dropWord (cstr "flags:") line with
      | some text => { info with flags := (scanOctal text).getD info.flags }
      | none =>
          match dropWord (cstr "mnt_id:") line with
          | some text =>
              { info with mntId := (scanInt text).elim info.mntId fun out => intOfLong out.1 }
          | none => info

/-- What is found in the file of a descriptor. -/
def readFdInfo (file : Option CString) : FdInfo :=
  file.elim unreadInfo fun text => (fgetsLines text).foldl fdLine unreadInfo

/-- What `dump_fd` finds in `/proc/self`. -/
structure ProcFiles where
  /-- `opendir` and `readdir` of `fd`, or the text of the error. -/
  entries : Except CString (List CString)
  readlink : CString → Except CString CString
  fopen : CString → Option CString

/-- The path of a descriptor, in an array of 80 bytes. -/
def fdPath (directory name : CString) : CString := bounded 80 (directory ++ name)

/-- `link`, in an array of `PATH_MAX` bytes. -/
def linkText : Except CString CString → CString
  | .ok path => path.take (pathMax - 1)
  | .error error => bounded pathMax (cstr "(readlink: " ++ error ++ cstr ")")

/-- The format of a row. -/
def fdRow (fd : ℤ) (info : FdInfo) (link : CString) : CString :=
  padRight 6 (decimal fd) ++ cstr " 0" ++ padLeft 6 (CChar.digit 0) (octalNat info.flags) ++
    [blank] ++ padLeft 12 blank (decimal info.pos) ++ [blank] ++
    padLeft 12 blank (decimal info.mntId) ++ [blank] ++ link ++ [newline]

/-- One round of the loop over the directory. -/
def dumpEntry (proc : ProcFiles) (name : CString) : CString :=
  fdRow (atoi name) (readFdInfo (proc.fopen (fdPath (cstr "/proc/self/fdinfo/") name)))
    (linkText (proc.readlink (fdPath (cstr "/proc/self/fd/") name)))

/-- The titles of the columns. -/
def fdColumns : CString :=
  padRight 6 (cstr "fd") ++ [blank] ++ padRight 8 (cstr "flags") ++ [blank] ++
    padLeft 12 blank (cstr "pos") ++ [blank] ++ padLeft 12 blank (cstr "mnt_id") ++
    cstr " path\n"

/-- A table with these rows. -/
def fdTable (console : Console) (rows : CString) : CString :=
  console.outHdr (cstr "=== Open file descriptors ===\n") ++ fdColumns ++ rows ++
    console.outHdr (cstr "=== end fd ===\n")

/-- `dump_fd`. The logger of the file has no initializer. -/
def dumpFd (console : Console) (proc : ProcFiles) : CString :=
  match proc.entries with
  | .error error => zeroLogger.error (cstr "dump_fd: cannot open /proc/self/fd: " ++ error)
  | .ok entries => fdTable console ((entries.filter isTaskName).flatMap (dumpEntry proc))

/-- No piece of the line, as `fgets` reads it, begins with a word that is looked for. -/
def Unnoticed (line : CString) : Prop :=
  ∀ k, ∀ word ∈ [cstr "pos:", cstr "flags:", cstr "mnt_id:"], ¬ word <+: line.drop (255 * k)

/-- A file in `/proc/self/fdinfo`: three lines, and others that depend on what is open. -/
structure FdInfoFile where
  pos : ℤ
  flags : ℕ
  mntId : ℤ
  others : List CString
  pos_fits : pos.natAbs < 2 ^ 64
  flags_fit : flags < 2 ^ 32
  mnt_fits : FitsInt mntId
  others_lines : ∀ line ∈ others, newline ∉ line
  others_unnoticed : ∀ line ∈ others, Unnoticed line

namespace FdInfoFile

variable (file : FdInfoFile)

/-- The first lines. -/
def lines : List CString :=
  [cstr "pos:" ++ tab :: decimal file.pos,
    cstr "flags:" ++ tab :: CChar.digit 0 :: octalNat file.flags,
    cstr "mnt_id:" ++ tab :: decimal file.mntId]

/-- The text of the file. -/
def text : CString := (file.lines ++ file.others).flatMap fun line => line ++ [newline]

/-- What is shown of it: a position below zero as a number of 64 bits. -/
def info : FdInfo := ⟨file.flags, (file.pos % 2 ^ 64).toNat, file.mntId⟩

end FdInfoFile

/-- An open descriptor: its number, its link, and its file in `fdinfo` if it can be opened. -/
structure OpenFd where
  fd : ℤ
  link : Except CString CString
  file : Option FdInfoFile
  fd_fits : FitsInt fd

namespace OpenFd

variable (openFd : OpenFd)

/-- The entry of the descriptor. -/
def entry : CString := decimal openFd.fd

/-- The row of the descriptor. -/
def row : CString :=
  fdRow openFd.fd (openFd.file.elim unreadInfo FdInfoFile.info) (linkText openFd.link)

end OpenFd

/-- The directory `/proc/self/fd`, with what belongs to its entries. -/
structure FdDirectory where
  proc : ProcFiles
  entries : List CString
  fds : List OpenFd
  opens : proc.entries = .ok entries
  lists : entries.filter isTaskName = fds.map OpenFd.entry
  links : ∀ openFd ∈ fds,
    proc.readlink (fdPath (cstr "/proc/self/fd/") openFd.entry) = openFd.link
  files : ∀ openFd ∈ fds,
    proc.fopen (fdPath (cstr "/proc/self/fdinfo/") openFd.entry) =
      openFd.file.map FdInfoFile.text

theorem toNat_digit_mod (n : ℕ) : (CChar.digit (n % 8)).toNat = 48 + n % 8 := by
  rw [CChar.toNat_digit]
  omega

theorem isOctal_digit_mod (n : ℕ) : isOctal (CChar.digit (n % 8)) = true := by
  rw [isOctal, toNat_digit_mod, Bool.and_eq_true, decide_eq_true_iff, decide_eq_true_iff]
  omega

theorem octalValue_concat (digits : CString) (c : CChar) :
    octalValue (digits ++ [c]) = octalValue digits * 8 + digitValue c := by
  rw [octalValue, List.foldl_append]
  rfl

theorem digitValue_digit_mod (n : ℕ) : digitValue (CChar.digit (n % 8)) = n % 8 := by
  rw [digitValue, toNat_digit_mod, Nat.add_sub_cancel_left]

/-- **The octal digits of a number denote it.** -/
theorem octalValue_octalNat (n : ℕ) : octalValue (octalNat n) = n := by
  induction n using Nat.strongRec with
  | ind n ih =>
      rw [octalNat]
      split
      · rename_i hsmall
        have hvalue := digitValue_digit_mod n
        rw [Nat.mod_eq_of_lt hsmall] at hvalue
        show 0 * 8 + digitValue (CChar.digit n) = n
        rw [hvalue, Nat.zero_mul, Nat.zero_add]
      · rename_i hlarge
        rw [octalValue_concat, ih (n / 8) (by omega), digitValue_digit_mod]
        omega

theorem isOctal_of_mem_octalNat {n : ℕ} {c : CChar} (hc : c ∈ octalNat n) : isOctal c = true := by
  induction n using Nat.strongRec with
  | ind n ih =>
      rw [octalNat] at hc
      split at hc
      · rename_i hsmall
        have hdigit := isOctal_digit_mod n
        rw [Nat.mod_eq_of_lt hsmall] at hdigit
        rwa [List.mem_singleton.mp hc]
      · rename_i hlarge
        rcases List.mem_append.mp hc with hinit | hlast
        · exact ih (n / 8) (by omega) hinit
        · rw [List.mem_singleton.mp hlast]
          exact isOctal_digit_mod n

theorem length_octalNat_le {n count : ℕ} (hn : n < 8 ^ (count + 1)) :
    (octalNat n).length ≤ count + 1 := by
  induction count generalizing n with
  | zero =>
      rw [octalNat, if_pos (by simpa using hn)]
      exact le_rfl
  | succ count ih =>
      rw [octalNat]
      split_ifs
      · exact Nat.succ_le_succ (Nat.zero_le _)
      · rw [List.length_append, List.length_singleton]
        apply Nat.succ_le_succ
        apply ih
        rw [Nat.div_lt_iff_lt_mul (by decide)]
        exact (pow_succ 8 (count + 1)).symm ▸ hn

/-- **Flags are read back**, with the zero that the kernel puts in front of them. -/
theorem scanOctal_octalNat {n : ℕ} (hn : n < 2 ^ 32) :
    scanOctal (tab :: CChar.digit 0 :: octalNat n ++ [newline]) = some n := by
  have hdigits : ∀ c ∈ CChar.digit 0 :: octalNat n, isOctal c = true := by
    intro c hc
    rcases List.mem_cons.mp hc with rfl | hc
    · decide
    · exact isOctal_of_mem_octalNat hc
  have htake : (CChar.digit 0 :: octalNat n ++ [newline]).takeWhile isOctal =
      CChar.digit 0 :: octalNat n := by
    rw [List.takeWhile_append_of_pos hdigits]
    exact List.append_nil _
  have hvalue : octalValue (CChar.digit 0 :: octalNat n) = n := octalValue_octalNat n
  have hskip : skipSpaces (tab :: CChar.digit 0 :: octalNat n ++ [newline]) =
      CChar.digit 0 :: (octalNat n ++ [newline]) :=
    skipSpaces_cons_of_isspace (by decide) _ |>.trans
      (skipSpaces_cons_of_not_isspace (by decide) _)
  have hsmall : ¬ 2 ^ 64 ≤ n := by omega
  have hmod : (1 * (n : ℤ) % 2 ^ 32).toNat = n := by omega
  rw [scanOctal, hskip]
  simp only
  rw [if_neg (by decide), if_neg (by decide), scanOctalSigned]
  simp only [← List.cons_append, htake, hvalue]
  rw [if_neg (List.cons_ne_nil _ _), if_neg hsmall, hmod]

/-! ## Lines -/

/-- A line that the array can hold. -/
theorem fgetsLines_short {line : CString} (hline : newline ∉ line) (hshort : line.length ≤ 254)
    (rest : CString) :
    fgetsLines (line ++ newline :: rest) = (line ++ [newline]) :: fgetsLines rest := by
  have hne : line ++ newline :: rest ≠ [] := by simp
  have hfits : bounded 256 (line ++ [newline]) = line ++ [newline] := by
    apply List.take_of_length_le
    rw [List.length_append, List.length_singleton]
    omega
  have hdrop : (line ++ newline :: rest).drop (line ++ [newline]).length = rest := by
    have hsplit : line ++ newline :: rest = (line ++ [newline]) ++ rest := by simp
    rw [hsplit, List.drop_left]
  rw [fgetsLines, dif_neg hne, strGetline_line hline]
  simp only [hfits, hdrop]

theorem fgetsLines_lines {lines : List CString}
    (hlines : ∀ line ∈ lines, newline ∉ line ∧ line.length ≤ 254) (rest : CString) :
    fgetsLines ((lines.flatMap fun line => line ++ [newline]) ++ rest) =
      (lines.map fun line => line ++ [newline]) ++ fgetsLines rest := by
  induction lines with
  | nil => rfl
  | cons line lines ih =>
      obtain ⟨⟨hline, hshort⟩, hlines⟩ := List.forall_mem_cons.mp hlines
      rw [List.flatMap_cons, List.append_assoc, List.append_assoc, List.singleton_append,
        fgetsLines_short hline hshort, ih hlines]
      rfl

/-- A line that is longer comes in pieces. -/
theorem fgetsLines_long {line : CString} (hline : newline ∉ line) (hlong : 254 < line.length)
    (rest : CString) :
    fgetsLines (line ++ newline :: rest) =
      line.take 255 :: fgetsLines (line.drop 255 ++ newline :: rest) := by
  have hne : line ++ newline :: rest ≠ [] := by simp
  have hcut : bounded 256 (line ++ [newline]) = line.take 255 :=
    List.take_append_of_le_length (by omega)
  have hlength : (line.take 255).length = 255 := List.length_take_of_le (by omega)
  have hdrop : (line ++ newline :: rest).drop 255 = line.drop 255 ++ newline :: rest :=
    List.drop_append_of_le_length (by omega)
  rw [fgetsLines, dif_neg hne, strGetline_line hline]
  simp only [hcut, hlength, hdrop]

/-- A line that comes in one piece. -/
theorem unnoticed_of_short {line : CString} (hshort : line.length ≤ 255)
    (hline : ∀ word ∈ [cstr "pos:", cstr "flags:", cstr "mnt_id:"], ¬ word <+: line) :
    Unnoticed line := by
  intro k word hword hbegins
  cases k with
  | zero => exact hline word hword hbegins
  | succ k =>
      rw [List.drop_eq_nil_of_le (by omega), List.prefix_nil] at hbegins
      have hwords : [] ∉ [cstr "pos:", cstr "flags:", cstr "mnt_id:"] := by decide
      exact hwords (hbegins ▸ hword)

theorem fdLine_of_none {line : CString}
    (hline : ∀ word ∈ [cstr "pos:", cstr "flags:", cstr "mnt_id:"], ¬ word <+: line)
    (info : FdInfo) : fdLine info line = info := by
  rw [fdLine, dropWord_eq_none (hline _ (by simp)), dropWord_eq_none (hline _ (by simp)),
    dropWord_eq_none (hline _ (by simp))]

/-- **A line that nothing is looked for in** changes nothing, in however many pieces it comes. -/
theorem foldl_fdLine_unnoticed {line : CString} (hline : newline ∉ line)
    (hunnoticed : Unnoticed line) (rest : CString) (info : FdInfo) :
    (fgetsLines (line ++ newline :: rest)).foldl fdLine info =
      (fgetsLines rest).foldl fdLine info := by
  have hfirst := hunnoticed 0
  rw [Nat.mul_zero, List.drop_zero] at hfirst
  rcases Nat.lt_or_ge 254 line.length with hlong | hshort
  · have hpiece : fdLine info (line.take 255) = info :=
      fdLine_of_none (fun word hword hbegins =>
        hfirst word hword (hbegins.trans (List.take_prefix _ _))) info
    have hrest : newline ∉ line.drop 255 := fun hmem => hline (List.mem_of_mem_drop hmem)
    have hpieces : Unnoticed (line.drop 255) := by
      intro k word hword
      rw [List.drop_drop]
      have hnext := hunnoticed (k + 1) word hword
      rwa [Nat.mul_succ, Nat.add_comm] at hnext
    rw [fgetsLines_long hline hlong, List.foldl_cons, hpiece]
    exact foldl_fdLine_unnoticed hrest hpieces rest info
  · have hpiece : fdLine info (line ++ [newline]) = info := by
      apply fdLine_of_none
      intro word hword hbegins
      have hnewline : ∀ word ∈ [cstr "pos:", cstr "flags:", cstr "mnt_id:"], newline ∉ word := by
        decide
      rcases List.prefix_concat_iff.mp hbegins with heq | hbegins
      · exact hnewline word hword (by rw [heq]; simp)
      · exact hfirst word hword hbegins
    rw [fgetsLines_short hline hshort, List.foldl_cons, hpiece]
termination_by line.length
decreasing_by
  rw [List.length_drop]
  omega

theorem foldl_fdLine_others {others : List CString} (hlines : ∀ line ∈ others, newline ∉ line)
    (hunnoticed : ∀ line ∈ others, Unnoticed line) (info : FdInfo) :
    (fgetsLines (others.flatMap fun line => line ++ [newline])).foldl fdLine info = info := by
  induction others with
  | nil => rw [List.flatMap_nil, fgetsLines, dif_pos rfl, List.foldl_nil]
  | cons line others ih =>
      obtain ⟨hline, hlines⟩ := List.forall_mem_cons.mp hlines
      obtain ⟨hfirst, hunnoticed⟩ := List.forall_mem_cons.mp hunnoticed
      rw [List.flatMap_cons, List.append_assoc, List.singleton_append,
        foldl_fdLine_unnoticed hline hfirst]
      exact ih hlines hunnoticed

theorem intOfLong_of_fits {n : ℤ} (hn : FitsInt n) : intOfLong n = n := by
  obtain ⟨hlow, hhigh⟩ := hn
  rw [intMax] at hlow hhigh
  have hlong : max (-2 ^ 63) (min n (2 ^ 63 - 1)) = n := by omega
  rw [intOfLong, hlong]
  apply Int.bmod_eq_of_le_mul_two
  · omega
  · omega

/-- `atoi` reads the entry of a descriptor. -/
theorem atoi_decimal {n : ℤ} (hn : FitsInt n) : atoi (decimal n) = n := by
  have hscan := @scanInt_decimal n [] (by decide)
  rw [List.append_nil] at hscan
  rw [atoi, hscan]
  exact intOfLong_of_fits hn

namespace FdInfoFile

variable (file : FdInfoFile) (info : FdInfo)

theorem fdLine_pos :
    fdLine info (cstr "pos:" ++ tab :: decimal file.pos ++ [newline]) =
      { info with pos := (file.pos % 2 ^ 64).toNat } := by
  have hends : EndsNumber [newline] := by decide
  have hscan : scanInt (tab :: (decimal file.pos ++ [newline])) = some (file.pos, [newline]) :=
    (scanInt_cons_of_isspace (by decide) _).trans (scanInt_decimal file.pos hends)
  rw [fdLine, List.append_assoc, dropWord_append]
  simp only [List.cons_append, strtoul, hscan, Option.map_some, Option.elim_some,
    if_neg (Nat.not_le.mpr file.pos_fits)]

theorem fdLine_flags :
    fdLine info (cstr "flags:" ++ tab :: CChar.digit 0 :: octalNat file.flags ++ [newline]) =
      { info with flags := file.flags } := by
  have hother (text : CString) : dropWord (cstr "pos:") (cstr "flags:" ++ text) = none := rfl
  rw [fdLine, List.append_assoc, hother, dropWord_append]
  simp only [scanOctal_octalNat file.flags_fit, Option.getD_some]

theorem fdLine_mntId :
    fdLine info (cstr "mnt_id:" ++ tab :: decimal file.mntId ++ [newline]) =
      { info with mntId := file.mntId } := by
  have hends : EndsNumber [newline] := by decide
  have hscan : scanInt (tab :: (decimal file.mntId ++ [newline])) = some (file.mntId, [newline]) :=
    (scanInt_cons_of_isspace (by decide) _).trans (scanInt_decimal file.mntId hends)
  have hpos (text : CString) : dropWord (cstr "pos:") (cstr "mnt_id:" ++ text) = none := rfl
  have hflags (text : CString) : dropWord (cstr "flags:") (cstr "mnt_id:" ++ text) = none := rfl
  rw [fdLine, List.append_assoc, hpos, hflags, dropWord_append]
  simp only [List.cons_append, hscan, Option.elim_some, intOfLong_of_fits file.mnt_fits]

/-- The first lines fit into the array. -/
theorem lines_short {line : CString} (hline : line ∈ file.lines) :
    newline ∉ line ∧ line.length ≤ 254 := by
  have hdecimal := newline_notMem_decimal
  have hoctal : newline ∉ octalNat file.flags := fun hmem =>
    absurd (isOctal_of_mem_octalNat hmem) (by decide)
  have hpos : (decimal file.pos).length ≤ 21 := by
    have hfits := file.pos_fits
    exact @length_decimal_le file.pos 19 (by norm_num at hfits ⊢; omega)
  have hflags : (octalNat file.flags).length ≤ 11 := by
    have hfits := file.flags_fit
    exact @length_octalNat_le file.flags 10 (by norm_num at hfits ⊢; omega)
  have hmnt := length_decimal_of_fits file.mnt_fits
  have hwords : newline ∉ cstr "pos:" ∧ newline ∉ cstr "flags:" ∧ newline ∉ cstr "mnt_id:" ∧
      newline ≠ tab ∧ newline ≠ CChar.digit 0 := by decide
  have hlengths : (cstr "pos:").length = 4 ∧ (cstr "flags:").length = 6 ∧
      (cstr "mnt_id:").length = 7 := by decide
  simp only [lines, List.mem_cons, List.not_mem_nil, or_false] at hline
  rcases hline with rfl | rfl | rfl
  · exact ⟨by simp [hwords, hdecimal], by simp [hlengths]; omega⟩
  · exact ⟨by simp [hwords, hoctal], by simp [hlengths]; omega⟩
  · exact ⟨by simp [hwords, hdecimal], by simp [hlengths]; omega⟩

/-- **What is found in the file** is what the kernel has written. -/
theorem readFdInfo_text : readFdInfo (some file.text) = file.info := by
  have hread : fgetsLines file.text = (file.lines.map fun line => line ++ [newline]) ++
      fgetsLines (file.others.flatMap fun line => line ++ [newline]) := by
    rw [text, List.flatMap_append]
    exact fgetsLines_lines (fun line hline => file.lines_short hline) _
  rw [readFdInfo, Option.elim_some, hread, List.foldl_append,
    foldl_fdLine_others file.others_lines file.others_unnoticed]
  simp only [lines, List.map_cons, List.map_nil, List.foldl_cons, List.foldl_nil, fdLine_pos,
    fdLine_flags, fdLine_mntId, info]

end FdInfoFile

namespace OpenFd

variable (openFd : OpenFd)

/-- The entry of a descriptor is a number. -/
theorem dumpEntry_eq {proc : ProcFiles}
    (hlink : proc.readlink (fdPath (cstr "/proc/self/fd/") openFd.entry) = openFd.link)
    (hfile : proc.fopen (fdPath (cstr "/proc/self/fdinfo/") openFd.entry) =
      openFd.file.map FdInfoFile.text) :
    dumpEntry proc openFd.entry = openFd.row := by
  have hinfo : readFdInfo (openFd.file.map FdInfoFile.text) =
      openFd.file.elim unreadInfo FdInfoFile.info := by
    cases openFd.file with
    | none => rfl
    | some file => exact file.readFdInfo_text
  rw [dumpEntry, hlink, hfile, hinfo, entry, atoi_decimal openFd.fd_fits, row]

end OpenFd

/-- There is one row for each descriptor, in the order of the directory. -/
theorem dumpFd_rows (console : Console) (dir : FdDirectory) :
    dumpFd console dir.proc = fdTable console (dir.fds.flatMap OpenFd.row) := by
  rw [dumpFd, dir.opens]
  simp only
  rw [dir.lists, List.flatMap_map]
  apply congrArg (fdTable console)
  apply List.flatMap_congr
  intro openFd hopen
  exact openFd.dumpEntry_eq (dir.links openFd hopen) (dir.files openFd hopen)

/-- A line that asks for the descriptors. -/
def IsListFd (bytes : List UInt8) : Prop :=
  ∃ name, lineName bytes = some name ∧
    (argIs name (cstr "f") = true ∨ argIs name (cstr "list-fd") = true)

theorem runArgv_of_listFd {name : CString}
    (hname : argIs name (cstr "f") = true ∨ argIs name (cstr "list-fd") = true)
    (outcomes : CommandOutcomes) (argv : List CString) (console : Console) :
    runArgv outcomes name argv console = some (console.message outcomes.descriptors) := by
  have hother {word : CString} := @not_argIs_of_argIs name (cstr "f") (cstr "list-fd") word hname
  have hboth : (argIs name (cstr "f") || argIs name (cstr "list-fd")) = true := by
    rw [Bool.or_eq_true]
    exact hname
  rw [runArgv, hother (by decide) (by decide), hother (by decide) (by decide),
    hother (by decide) (by decide), hother (by decide) (by decide), hother (by decide) (by decide),
    hboth]
  rfl

/-- **`list-fd` shows the open files.** -/
theorem listFd_shows (console : Console) (dir : FdDirectory) (outcomes : CommandOutcomes)
    {bytes : List UInt8} (hline : IsListFd bytes) :
    consoleStep console (.line bytes { outcomes with descriptors := dumpFd console dir.proc }) =
      some ((console.message (cstr "Dbg> ")).message
        (fdTable console (dir.fds.flatMap OpenFd.row))) := by
  obtain ⟨name, hname, hword⟩ := hline
  rw [consoleStep, runCommand_of_name hname, runArgv_of_listFd hword, dumpFd_rows]

/-- A file that is open at its sixth byte. -/
def openFile : OpenFd where
  fd := 3
  link := .ok (cstr "/tmp/a")
  file := some
    { pos := 5
      flags := 32770
      mntId := 29
      others := [cstr "ino:\t9"]
      pos_fits := by decide
      flags_fit := by decide
      mnt_fits := by decide
      others_lines := by decide
      others_unnoticed line hline := by
        rw [List.mem_singleton.mp hline]
        exact unnoticed_of_short (by decide) (by decide) }
  fd_fits := by decide

/-- A directory with this descriptor. -/
def openDirectory : FdDirectory where
  proc :=
    { entries := .ok [cstr ".", cstr "..", cstr "3"]
      readlink := fun _ => openFile.link
      fopen := fun _ => openFile.file.map FdInfoFile.text }
  entries := [cstr ".", cstr "..", cstr "3"]
  fds := [openFile]
  opens := rfl
  lists := by decide +kernel
  links openFd hopen := by rw [List.mem_singleton.mp hopen]
  files openFd hopen := by rw [List.mem_singleton.mp hopen]

/-- The command `F` in that process: a row for its one descriptor. -/
theorem listFd_shows_openFile :
    consoleStep freshConsole (.line (bytesOf (cstr "F\n"))
        { withoutGdb with descriptors := dumpFd freshConsole openDirectory.proc }) =
      some ((freshConsole.message (cstr "Dbg> ")).message (fdTable freshConsole
        (cstr "3      0100002            5           29 /tmp/a\n"))) := by
  have hline : IsListFd (bytesOf (cstr "F\n")) :=
    ⟨cstr "F", by decide +kernel, .inl (by decide +kernel)⟩
  have hrow : openDirectory.fds.flatMap OpenFd.row =
      cstr "3      0100002            5           29 /tmp/a\n" := by decide +kernel
  rw [listFd_shows freshConsole openDirectory withoutGdb hline, hrow]

end BasC
