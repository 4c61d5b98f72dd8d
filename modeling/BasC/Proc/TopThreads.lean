/-
# The threads of the process

`top_threads` goes through `/proc/self/task` and reads two files of each thread. In its `stat` it
looks for the last parenthesis, so a name may have anything in it, and then scans the fields with
one format. The format passes over seven unsigned numbers where there are five in front of the
times of the thread: what is printed as its `utime` and `stime` are the times of the children that
it has waited for.

The times are printed in seconds, as floating point numbers. A row has them as the ticks that were
read.
-/

import BasC.Base.Str
import BasC.Cli.Args
import BasC.Proc.Pid
import BasC.Proc.Timer

namespace BasC

open CChar

/-- `fgets` into a `char` array; `none` at the end of the file. -/
def fgets (size : ℕ) (stream : CString) : Option CString :=
  if stream = [] then none else some (bounded size (strGetline stream).1)

/-- What is read of the `stat` of a thread. -/
structure ThreadStat where
  state : CChar
  utime : ℕ
  stime : ℕ
  deriving DecidableEq

/-- The values in front of a scan. -/
def unreadStat : ThreadStat := ⟨question, 0, 0⟩

/-- `%*d` and `%*u`, each so often: what is behind the numbers. -/
def skipNumbers : ℕ → CString → Option CString
  | 0, text => some text
  | count + 1, text => (scanInt text).bind fun out => skipNumbers count out.2

/-- `%lu %lu`. -/
def scanTimes (text : CString) : ℕ × ℕ :=
  (strtoul text).elim (0, 0) fun out => (out.1, (strtoul out.2).elim 0 Prod.fst)

/-- `sscanf` with `%c %*d %*d %*d %*d %*d %*u %*u %*u %*u %*u %*u %*u %lu %lu`. -/
def scanStat : CString → ThreadStat
  | [] => unreadStat
  | state :: text =>
      let times := (skipNumbers 12 text).elim (0, 0) scanTimes
      ⟨state, times.1, times.2⟩

/-- What `top_threads` finds in `/proc/self/task/TID/stat`. -/
def readStat (file : Option CString) : ThreadStat :=
  match file.bind (fgets 512) with
  | none => unreadStat
  | some buf =>
      match strrchr buf closeParen with
      | none => unreadStat
      | some (_, r) => (dropWord (cstr ") ") r).elim unreadStat scanStat

/-- What it finds in `/proc/self/task/TID/comm`. -/
def readComm (file : Option CString) : CString :=
  let comm := (file.bind (fgets 64)).getD []
  if comm.getLast? = some newline then comm.dropLast else comm

/-- The path of a file of a thread, in an array of 256 bytes. -/
def taskPath (tid file : CString) : CString :=
  bounded 256 (cstr "/proc/self/task/" ++ tid ++ cstr "/" ++ file)

/-- A line of the table. -/
structure ThreadRow where
  tid : CString
  comm : CString
  stat : ThreadStat
  deriving DecidableEq

/-- One round of the loop, by the contents of the files that can be opened. -/
def threadRow (fopen : CString → Option CString) (tid : CString) : ThreadRow :=
  let comm := readComm (fopen (taskPath tid (cstr "comm")))
  ⟨tid, if comm = [] then cstr "-" else comm, readStat (fopen (taskPath tid (cstr "stat")))⟩

/-- The directory entries that are threads. -/
def isTaskName (name : CString) : Bool := name.head? ≠ some dot && name.head?.any isdigit

/-- `top_threads`, of a directory with these entries. -/
def topThreads (fopen : CString → Option CString) (entries : List CString) : List ThreadRow :=
  (entries.filter isTaskName).map (threadRow fopen)

/-- A line of `/proc/self/task/TID/stat`. -/
structure TaskStat where
  tid : ℤ
  comm : CString
  state : CChar
  /-- The parent, the process group, the session, the terminal and its foreground group. -/
  ids : List ℤ
  /-- The flags and the four counts of faults. -/
  counters : List ℕ
  utime : ℕ
  stime : ℕ
  cutime : ℕ
  cstime : ℕ
  rest : CString
  tid_pos : 0 < tid
  tid_fits : FitsInt tid
  comm_line : newline ∉ comm
  comm_short : comm.length ≤ 246
  state_letter : isLetter state = true
  ids_length : ids.length = 5
  ids_fit : ∀ n ∈ ids, FitsInt n
  counters_length : counters.length = 5
  counters_fit : ∀ n ∈ counters, n < 2 ^ 64
  times_fit : utime < 2 ^ 64 ∧ stime < 2 ^ 64 ∧ cutime < 2 ^ 64 ∧ cstime < 2 ^ 64
  rest_ends : EndsNumber rest
  rest_plain : closeParen ∉ rest

/-- Numbers with a blank in front of each. -/
def numberFields (numbers : List ℤ) : CString := numbers.flatMap fun n => blank :: decimal n

namespace TaskStat

/-- The numbers up to the times of the thread. -/
def skipped (stat : TaskStat) : List ℤ :=
  stat.ids ++ stat.counters.map Int.ofNat ++ [(stat.utime : ℤ), (stat.stime : ℤ)]

/-- What stands behind the name, up to the times of the children. -/
def fields (stat : TaskStat) : CString :=
  stat.state :: numberFields (stat.skipped ++ [(stat.cutime : ℤ), (stat.cstime : ℤ)])

/-- The text in front of the other fields. -/
def front (stat : TaskStat) : CString :=
  decimal stat.tid ++ blank :: openParen :: (stat.comm ++ closeParen :: blank :: stat.fields)

/-- The text of the line. -/
def text (stat : TaskStat) : CString := stat.front ++ stat.rest

end TaskStat

/-- A thread: its `stat`, and its name as it is in `comm`. -/
structure ProcTask where
  stat : TaskStat
  name : CString

namespace ProcTask

/-- The entry of the thread. -/
def entry (task : ProcTask) : CString := decimal task.stat.tid

/-- The name that can be shown: one line, of at most 63 bytes. -/
def shownName (task : ProcTask) : CString :=
  let comm := (task.name.takeWhile (· ≠ newline)).take 63
  if comm = [] then cstr "-" else comm

/-- The row of the thread. -/
def row (task : ProcTask) : ThreadRow :=
  ⟨task.entry, task.shownName, ⟨task.stat.state, task.stat.cutime, task.stat.cstime⟩⟩

end ProcTask

/-- The directory `/proc/self/task`, with the files in it. -/
structure TaskDirectory where
  entries : List CString
  fopen : CString → Option CString
  tasks : List ProcTask
  lists : entries.filter isTaskName = tasks.map ProcTask.entry
  comm_file : ∀ task ∈ tasks, fopen (taskPath task.entry (cstr "comm")) =
    some (task.name ++ [newline])
  stat_file : ∀ task ∈ tasks, fopen (taskPath task.entry (cstr "stat")) = some task.stat.text

theorem length_decimalNat_le {n count : ℕ} (hn : n < 10 ^ (count + 1)) :
    (decimalNat n).length ≤ count + 1 := by
  induction count generalizing n with
  | zero =>
      rw [decimalNat, if_pos (by simpa using hn)]
      exact le_rfl
  | succ count ih =>
      rw [decimalNat]
      split_ifs
      · exact Nat.succ_le_succ (Nat.zero_le _)
      · rw [List.length_append, List.length_singleton]
        refine Nat.succ_le_succ (ih ?_)
        rw [Nat.div_lt_iff_lt_mul (by decide)]
        exact (pow_succ 10 (count + 1)).symm ▸ hn

theorem length_decimal_le {n : ℤ} {count : ℕ} (hn : n.natAbs < 10 ^ (count + 1)) :
    (decimal n).length ≤ count + 2 := by
  have hlength := length_decimalNat_le hn
  rw [decimal]
  split_ifs
  · exact Nat.succ_le_succ hlength
  · exact hlength.trans (Nat.le_succ _)

theorem length_decimal_of_fits {n : ℤ} (hn : FitsInt n) : (decimal n).length ≤ 11 := by
  have habs : n.natAbs < 10 ^ (9 + 1) := by
    obtain ⟨hlow, hhigh⟩ := hn
    rw [intMax] at hlow hhigh
    norm_num
    omega
  exact length_decimal_le habs

theorem length_decimal_of_lt {n : ℕ} (hn : n < 2 ^ 64) : (decimal n).length ≤ 20 := by
  rw [decimal, if_neg (by omega)]
  exact length_decimalNat_le (hn.trans (by decide))

/-- No number has a parenthesis or a newline in it. -/
theorem isdigit_or_dash_of_mem_decimal {n : ℤ} {c : CChar} (hc : c ∈ decimal n) :
    isdigit c = true ∨ c = dash := by
  rw [decimal] at hc
  split_ifs at hc
  · rcases List.mem_cons.mp hc with hdash | hdigit
    · exact .inr hdash
    · exact .inl (isdigit_of_mem_decimalNat hdigit)
  · exact .inl (isdigit_of_mem_decimalNat hc)

theorem mem_numberFields {numbers : List ℤ} {c : CChar} (hc : c ∈ numberFields numbers) :
    isdigit c = true ∨ c = dash ∨ c = blank := by
  obtain ⟨n, -, hc⟩ := List.mem_flatMap.mp hc
  rcases List.mem_cons.mp hc with hblank | hnumber
  · exact .inr (.inr hblank)
  · exact (isdigit_or_dash_of_mem_decimal hnumber).imp_right .inl

theorem notMem_numberFields {numbers : List ℤ} {c : CChar} (hdigit : isdigit c = false)
    (hdash : c ≠ dash) (hblank : c ≠ blank) : c ∉ numberFields numbers := by
  intro hc
  rcases mem_numberFields hc with hmem | hmem | hmem
  · rw [hdigit] at hmem
    cases hmem
  · exact hdash hmem
  · exact hblank hmem

/-- The fields of a line begin with a blank, so a number ends in front of them. -/
theorem endsNumber_numberFields (numbers : List ℤ) {tail : CString} (htail : EndsNumber tail) :
    EndsNumber (numberFields numbers ++ tail) := by
  cases numbers with
  | nil => exact htail
  | cons n numbers =>
      intro c hc
      obtain rfl : blank = c := Option.some.inj hc
      decide

theorem scanInt_numberFields (n : ℤ) (numbers : List ℤ) {tail : CString}
    (htail : EndsNumber tail) :
    scanInt (numberFields (n :: numbers) ++ tail) = some (n, numberFields numbers ++ tail) := by
  have hsplit : numberFields (n :: numbers) ++ tail =
      blank :: (decimal n ++ (numberFields numbers ++ tail)) := by
    simp [numberFields]
  rw [hsplit, scanInt_cons_of_isspace (by decide)]
  exact scanInt_decimal n (endsNumber_numberFields numbers htail)

/-- As many numbers are passed over as there are. -/
theorem skipNumbers_numberFields (skipped numbers : List ℤ) {tail : CString}
    (htail : EndsNumber tail) :
    skipNumbers skipped.length (numberFields (skipped ++ numbers) ++ tail) =
      some (numberFields numbers ++ tail) := by
  induction skipped with
  | nil => rfl
  | cons n skipped ih =>
      rw [List.length_cons, skipNumbers, List.cons_append,
        scanInt_numberFields n (skipped ++ numbers) htail]
      exact ih

theorem strtoul_numberFields {n : ℕ} (hn : n < 2 ^ 64) (numbers : List ℤ) {tail : CString}
    (htail : EndsNumber tail) :
    strtoul (numberFields ((n : ℤ) :: numbers) ++ tail) =
      some (n, numberFields numbers ++ tail) := by
  have hmod : (n : ℤ) % 2 ^ 64 = n := Int.emod_eq_of_lt (by omega) (by exact_mod_cast hn)
  rw [strtoul, scanInt_numberFields _ _ htail, Option.map_some, Int.natAbs_natCast,
    if_neg (Nat.not_le.mpr hn), hmod, Int.toNat_natCast]

theorem scanTimes_numberFields {utime stime : ℕ} (hutime : utime < 2 ^ 64)
    (hstime : stime < 2 ^ 64) {tail : CString} (htail : EndsNumber tail) :
    scanTimes (numberFields [(utime : ℤ), (stime : ℤ)] ++ tail) = (utime, stime) := by
  rw [scanTimes, strtoul_numberFields hutime _ htail, Option.elim_some,
    strtoul_numberFields hstime _ htail, Option.elim_some]

/-! ## Lines -/

/-- A line that begins with a text without a newline. -/
theorem strGetline_append_of_notMem {text : CString} (htext : newline ∉ text) (rest : CString) :
    (strGetline (text ++ rest)).1 = text ++ (strGetline rest).1 := by
  have hall : ∀ c ∈ text, decide (c ≠ newline) = true := fun c hc =>
    decide_eq_true fun heq => htext (heq ▸ hc)
  rw [strGetline, strGetline, List.dropWhile_append_of_pos hall, List.takeWhile_append_of_pos hall]
  cases rest.dropWhile (· ≠ newline) with
  | nil => rfl
  | cons c more => exact List.append_assoc _ _ _

theorem head?_of_beginning {part whole : CString} (hpart : part <+: whole) {c : CChar}
    (hc : c ∈ part.head?) : c ∈ whole.head? := by
  obtain ⟨more, rfl⟩ := hpart
  cases part with
  | nil => cases hc
  | cons d part => exact hc

theorem length_numberFields_le {numbers : List ℤ} {most : ℕ}
    (hmost : ∀ n ∈ numbers, (decimal n).length ≤ most) :
    (numberFields numbers).length ≤ numbers.length * (most + 1) := by
  induction numbers with
  | nil => exact Nat.zero_le _
  | cons n numbers ih =>
      obtain ⟨hfirst, hrest⟩ := List.forall_mem_cons.mp hmost
      have hrest := ih hrest
      have hsplit : numberFields (n :: numbers) = blank :: (decimal n ++ numberFields numbers) := by
        simp [numberFields]
      rw [hsplit, List.length_cons, List.length_append, List.length_cons]
      calc (decimal n).length + (numberFields numbers).length + 1
          ≤ most + numbers.length * (most + 1) + 1 := by omega
        _ = (numbers.length + 1) * (most + 1) := by ring

namespace TaskStat

variable (stat : TaskStat)

theorem length_skipped : stat.skipped.length = 12 := by
  simp [skipped, stat.ids_length, stat.counters_length]

/-- The text up to the times of the children fits into the buffer. -/
theorem length_front : stat.front.length ≤ 511 := by
  obtain ⟨hutime, hstime, hcutime, hcstime⟩ := stat.times_fit
  have hids : (numberFields stat.ids).length ≤ 5 * 12 := by
    have hle := length_numberFields_le fun n hn => length_decimal_of_fits (stat.ids_fit n hn)
    rwa [stat.ids_length] at hle
  have hlong : (numberFields (stat.counters.map Int.ofNat ++
      [(stat.utime : ℤ), (stat.stime : ℤ), (stat.cutime : ℤ), (stat.cstime : ℤ)])).length ≤
        9 * 21 := by
    have hle := @length_numberFields_le (stat.counters.map Int.ofNat ++
      [(stat.utime : ℤ), (stat.stime : ℤ), (stat.cutime : ℤ), (stat.cstime : ℤ)]) 20 ?_
    · simpa [stat.counters_length] using hle
    · intro n hn
      rcases List.mem_append.mp hn with hn | hn
      · obtain ⟨m, hm, rfl⟩ := List.mem_map.mp hn
        exact length_decimal_of_lt (stat.counters_fit m hm)
      · simp only [List.mem_cons, List.not_mem_nil, or_false] at hn
        rcases hn with rfl | rfl | rfl | rfl
        · exact length_decimal_of_lt hutime
        · exact length_decimal_of_lt hstime
        · exact length_decimal_of_lt hcutime
        · exact length_decimal_of_lt hcstime
  have hfields : stat.fields.length = (numberFields stat.ids).length +
      (numberFields (stat.counters.map Int.ofNat ++ [(stat.utime : ℤ), (stat.stime : ℤ),
        (stat.cutime : ℤ), (stat.cstime : ℤ)])).length + 1 := by
    simp [fields, skipped, numberFields]
  have htid := length_decimal_of_fits stat.tid_fits
  have hcomm := stat.comm_short
  rw [front]
  simp only [List.length_append, List.length_cons]
  omega

/-- No newline is in front of the other fields. -/
theorem newline_notMem_front : newline ∉ stat.front := by
  have htid := newline_notMem_decimal stat.tid
  have hstate : newline ≠ stat.state := by
    intro heq
    have hletter := stat.state_letter
    rw [← heq] at hletter
    exact absurd hletter (by decide)
  have hnumbers : newline ∉ numberFields (stat.skipped ++ [(stat.cutime : ℤ), (stat.cstime : ℤ)]) :=
    notMem_numberFields (by decide) (by decide) (by decide)
  have hblank : newline ≠ blank := by decide
  have hopen : newline ≠ openParen := by decide
  have hclose : newline ≠ closeParen := by decide
  simp [front, fields, htid, stat.comm_line, hstate, hnumbers, hblank, hopen, hclose]

/-- What `fgets` reads: the fields that are scanned, and something of the others. -/
theorem fgets_text : ∃ more, fgets 512 stat.text = some (stat.front ++ more) ∧
    EndsNumber more ∧ closeParen ∉ more := by
  have hne : stat.text ≠ [] := by simp [text, front]
  have hbegins : ((strGetline stat.rest).1.take (511 - stat.front.length)) <+: stat.rest :=
    (List.take_prefix _ _).trans ⟨_, strGetline_append stat.rest⟩
  refine ⟨(strGetline stat.rest).1.take (511 - stat.front.length), ?_, fun c hc => ?_,
    fun hmem => stat.rest_plain (hbegins.subset hmem)⟩
  · rw [fgets, if_neg hne, text, strGetline_append_of_notMem stat.newline_notMem_front, bounded,
      List.take_append, List.take_of_length_le stat.length_front]
  · exact stat.rest_ends c (head?_of_beginning hbegins hc)

/-- **The fields that are read.** The letter is that of the thread, and the times are those of
its children, whatever its name is. -/
theorem readStat_text : readStat (some stat.text) = ⟨stat.state, stat.cutime, stat.cstime⟩ := by
  obtain ⟨more, hgets, hends, hplain⟩ := stat.fgets_text
  have hafter : closeParen ∉ blank :: (stat.fields ++ more) := by
    have hstate : closeParen ≠ stat.state := by
      intro heq
      have hletter := stat.state_letter
      rw [← heq] at hletter
      exact absurd hletter (by decide)
    have hnumbers :
        closeParen ∉ numberFields (stat.skipped ++ [(stat.cutime : ℤ), (stat.cstime : ℤ)]) :=
      notMem_numberFields (by decide) (by decide) (by decide)
    have hblank : closeParen ≠ blank := by decide
    simp [fields, hstate, hnumbers, hblank, hplain]
  have hfound : strrchr (stat.front ++ more) closeParen =
      some (decimal stat.tid ++ blank :: openParen :: stat.comm,
        closeParen :: blank :: (stat.fields ++ more)) := by
    have hsplit : stat.front ++ more =
        (decimal stat.tid ++ blank :: openParen :: stat.comm) ++
          closeParen :: blank :: (stat.fields ++ more) := by
      simp [front]
    rw [hsplit, strrchr_append _ hafter]
  have hword : dropWord (cstr ") ") (closeParen :: blank :: (stat.fields ++ more)) =
      some (stat.fields ++ more) :=
    dropWord_append (cstr ") ") _
  have hskip : skipNumbers 12 (numberFields (stat.skipped ++
      [(stat.cutime : ℤ), (stat.cstime : ℤ)]) ++ more) =
        some (numberFields [(stat.cutime : ℤ), (stat.cstime : ℤ)] ++ more) := by
    rw [← stat.length_skipped]
    exact skipNumbers_numberFields stat.skipped _ hends
  obtain ⟨-, -, hcutime, hcstime⟩ := stat.times_fit
  rw [readStat, Option.bind_some, hgets]
  simp only [hfound, hword, Option.elim_some]
  simp only [fields, List.cons_append, scanStat, hskip, Option.elim_some,
    scanTimes_numberFields hcutime hcstime hends]

end TaskStat

/-- The first line of a name. -/
theorem strGetline_name (name : CString) :
    (strGetline (name ++ [newline])).1 = name.takeWhile (· ≠ newline) ++ [newline] := by
  have hline : newline ∉ name.takeWhile (· ≠ newline) := fun hmem => by
    simpa using List.mem_takeWhile_imp hmem
  have hsplit := List.takeWhile_append_dropWhile (p := (· ≠ newline)) (l := name)
  cases hdrop : name.dropWhile (· ≠ newline) with
  | nil =>
      rw [hdrop, List.append_nil] at hsplit
      have hget := strGetline_line hline []
      rw [hsplit] at hget ⊢
      exact congrArg Prod.fst hget
  | cons c more =>
      have hc : c = newline := by
        have hhead := List.head?_dropWhile_not (· ≠ newline) name
        rw [hdrop] at hhead
        simpa using hhead
      rw [hdrop, hc] at hsplit
      have hget := strGetline_line hline (more ++ [newline])
      rw [← List.cons_append, ← List.append_assoc, hsplit] at hget
      exact congrArg Prod.fst hget

/-- The name that is read from `comm`. -/
theorem readComm_name (name : CString) :
    readComm (some (name ++ [newline])) = (name.takeWhile (· ≠ newline)).take 63 := by
  have hline : newline ∉ name.takeWhile (· ≠ newline) := fun hmem => by
    simpa using List.mem_takeWhile_imp hmem
  have hgets : fgets 64 (name ++ [newline]) =
      some ((name.takeWhile (· ≠ newline) ++ [newline]).take 63) := by
    rw [fgets, if_neg (by simp), strGetline_name]
    rfl
  simp only [readComm, Option.bind_some, hgets, Option.getD_some]
  rcases Nat.lt_or_ge (name.takeWhile (· ≠ newline)).length 63 with hshort | hlong
  · -- The newline is read as well, and taken away.
    have hall : (name.takeWhile (· ≠ newline) ++ [newline]).length ≤ 63 := by
      rw [List.length_append]
      exact hshort
    rw [List.take_of_length_le hall, List.getLast?_concat, if_pos rfl, List.dropLast_concat,
      List.take_of_length_le hshort.le]
  · -- The buffer is full in front of the newline.
    rw [List.take_append_of_le_length hlong, if_neg]
    intro hlast
    exact hline (List.mem_of_mem_take (List.mem_of_getLast? hlast))

/-- **The table of the threads.** There is one row for each thread, in the order of the directory,
with its number, what can be shown of its name, its state, and the times of its children as its
own; these times never stand behind the 511 bytes of the line that are read. -/
theorem topThreads_rows (dir : TaskDirectory) :
    topThreads dir.fopen dir.entries = dir.tasks.map ProcTask.row ∧
      ∀ task ∈ dir.tasks, task.stat.front <+: task.stat.text ∧ task.stat.front.length ≤ 511 := by
  refine ⟨?_, fun task _ => ⟨List.prefix_append _ _, task.stat.length_front⟩⟩
  rw [topThreads, dir.lists, List.map_map]
  refine List.map_congr_left fun task htask => ?_
  simp only [Function.comp_apply, threadRow, dir.comm_file task htask, dir.stat_file task htask,
    readComm_name, TaskStat.readStat_text, ProcTask.row, ProcTask.shownName]

/-- A thread with the name `a) b`, which has used 3 and 4 ticks. -/
def runner : ProcTask where
  stat :=
    { tid := 7
      comm := cstr "a) b"
      state := ⟨82, by decide⟩
      ids := [1, 7, 7, 0, -1]
      counters := [4194304, 90, 0, 0, 0]
      utime := 3
      stime := 4
      cutime := 0
      cstime := 0
      rest := cstr " 20 0 1"
      tid_pos := by decide
      tid_fits := by decide
      comm_line := by decide
      comm_short := by decide
      state_letter := by decide
      ids_length := rfl
      ids_fit := by decide
      counters_length := rfl
      counters_fit := by decide
      times_fit := by decide
      rest_ends := by decide
      rest_plain := by decide }
  name := cstr "a) b"

/-- A directory with this thread. -/
def runnerDirectory : TaskDirectory where
  entries := [cstr ".", cstr "..", cstr "7"]
  fopen path :=
    if path = taskPath runner.entry (cstr "comm") then some (runner.name ++ [newline])
    else if path = taskPath runner.entry (cstr "stat") then some runner.stat.text
    else none
  tasks := [runner]
  lists := by decide +kernel
  comm_file task htask := by
    rw [List.mem_singleton.mp htask, if_pos rfl]
  stat_file task htask := by
    rw [List.mem_singleton.mp htask, if_neg (by decide +kernel), if_pos rfl]

/-- Its times are not shown. -/
theorem topThreads_rows_runner :
    topThreads runnerDirectory.fopen runnerDirectory.entries =
      [⟨cstr "7", cstr "a) b", ⟨⟨82, by decide⟩, 0, 0⟩⟩] :=
  (topThreads_rows runnerDirectory).1.trans (by decide +kernel)

end BasC
