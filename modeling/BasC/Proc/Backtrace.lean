/-
# Reading back a stack dump

`stackdump_current_thread` writes a header and what `backtrace_symbols` gives, a line each.
`backtrace_parse` takes a line with `===` and `Thread` for the header of a thread, and looks
for the frames of that thread in the lines that begin with `#`.
-/

import BasC.Proc.FormatGdb

namespace BasC

open CChar

/-- `is_backtrace_thread_header`. -/
def isBacktraceThreadHeader (line : CString) : Bool :=
  let p := skipBlanks line
  (strstr (cstr "===") p).isSome && (strstr (cstr "Thread") p).isSome

/-- `backtrace_thread_name_from_line`. -/
def backtraceThreadNameFromLine (line : CString) : CString :=
  match strchr line openParen with
  | none => cstr "current"
  | some (_, p) =>
      match strchr p.tail closeParen with
      | none => cstr "current"
      | some (name, _) => if name = [] then cstr "current" else name

/-- The threads that have been found, with the `current` one apart. -/
structure BacktraceState where
  threads : List ThreadInfo
  current : Option ThreadInfo

/-- The list `result`. -/
def BacktraceState.result (s : BacktraceState) : List ThreadInfo :=
  s.threads ++ s.current.toList

/-- One round of the loop of `backtrace_parse`; `none` when a frame number overflows. -/
def backtraceLine (s : BacktraceState) (line : CString) : Option BacktraceState :=
  if isBacktraceThreadHeader line then
    some ⟨s.result, some ⟨0, backtraceThreadNameFromLine line, 0, []⟩⟩
  else
    match s.current with
    | none => some s
    | some thread =>
        if line.head? = some hash then
          match gdbOutputStackFrameParse line with
          | .noFrame => some s
          | .overflow => none
          | .frame f =>
              some { s with current := some { thread with frames := thread.frames ++ [f] } }
        else some s

/-- `backtrace_parse`. -/
def backtraceParse (stream : CString) : Option (List ThreadInfo) :=
  ((getlines stream).foldlM backtraceLine ⟨[], none⟩).map BacktraceState.result

/-- What `stackdump_current_thread` writes above the symbols. -/
def currentThreadHeader : CString := cstr "=== Thread (current) ==="

/-- The file that `stackdump_current_thread` writes, when `backtrace_symbols` gives these
strings. -/
def stackdumpCurrentThread (symbols : List CString) : CString :=
  currentThreadHeader ++ [newline] ++ symbols.flatMap fun symbol => symbol ++ [newline]

/-- The dump is read back as one thread with one frame for each symbol line, in order. -/
def ReadsBack (symbols : List CString) : Prop :=
  ∃ thread, backtraceParse (stackdumpCurrentThread symbols) = some [thread] ∧
    thread.frames.map StackFrame.rawLine = symbols.map fun symbol => symbol ++ [newline]

/-- A line that is read as a frame: it begins with `#` and a number that fits an `int`, and
is not taken for a header. -/
def IsFrameLine (symbol : CString) : Prop :=
  newline ∉ symbol ∧ ¬ (cstr "===" <:+: symbol ∧ cstr "Thread" <:+: symbol) ∧
    ∃ p, symbol = hash :: p ∧ p.head?.any isdigit = true ∧
      (digitsValue (p.takeWhile isdigit) : ℤ) ≤ intMax

/-- What a line without a header gives. -/
def lineFrame (line : CString) : FrameParse :=
  if line.head? = some hash then gdbOutputStackFrameParse line else .noFrame

def FrameParse.frame? : FrameParse → Option StackFrame
  | .frame f => some f
  | _ => none

/-- A frame keeps the line that it was found in. -/
theorem rawLine_of_lineFrame {line : CString} {f : StackFrame}
    (hframe : (lineFrame line).frame? = some f) : f.rawLine = line := by
  unfold lineFrame gdbOutputStackFrameParse at hframe
  split_ifs at hframe
  · split at hframe
    · cases hframe
    · split_ifs at hframe
      · cases hframe
      · obtain rfl := Option.some.inj hframe
        rfl
  · cases hframe

/-- A line without a header gives its frame to the thread. -/
theorem backtraceLine_of_thread {line : CString} (hline : isBacktraceThreadHeader line = false)
    (threads : List ThreadInfo) (thread : ThreadInfo) :
    backtraceLine ⟨threads, some thread⟩ line =
      if lineFrame line = .overflow then none
      else some ⟨threads, some { thread with
        frames := thread.frames ++ ((lineFrame line).frame?).toList }⟩ := by
  by_cases hhash : line.head? = some hash
  · simp only [backtraceLine, hline, Bool.false_eq_true, if_false, lineFrame, hhash, if_true]
    cases gdbOutputStackFrameParse line <;> simp [FrameParse.frame?]
  · simp [backtraceLine, hline, lineFrame, hhash, FrameParse.frame?]

/-- So do several lines. -/
theorem foldlM_of_no_header {lines : List CString}
    (hlines : ∀ line ∈ lines, isBacktraceThreadHeader line = false) (threads : List ThreadInfo)
    (thread : ThreadInfo) (s : BacktraceState) :
    lines.foldlM backtraceLine ⟨threads, some thread⟩ = some s ↔
      (∀ line ∈ lines, lineFrame line ≠ .overflow) ∧
        s = ⟨threads, some { thread with
          frames := thread.frames ++ lines.filterMap fun line => (lineFrame line).frame? }⟩ := by
  induction lines generalizing thread with
  | nil => simp [eq_comm]
  | cons line lines ih =>
      have hrest := fun line' hmem => hlines line' (List.mem_cons_of_mem line hmem)
      rw [List.foldlM_cons, backtraceLine_of_thread (hlines line List.mem_cons_self)]
      by_cases hoverflow : lineFrame line = .overflow
      · simp [hoverflow]
      · rw [if_neg hoverflow, Option.bind_eq_bind, Option.bind_some, ih hrest]
        cases hframe : (lineFrame line).frame? <;>
          simp [hoverflow, hframe]

/-- Each header begins another thread. -/
theorem length_of_foldlM {lines : List CString} {s t : BacktraceState}
    (hcurrent : s.current.isSome = true) (hlines : lines.foldlM backtraceLine s = some t) :
    t.current.isSome = true ∧
      t.threads.length = s.threads.length + lines.countP isBacktraceThreadHeader := by
  induction lines generalizing s with
  | nil =>
      obtain rfl := Option.some.inj hlines
      exact ⟨hcurrent, rfl⟩
  | cons line lines ih =>
      rw [List.foldlM_cons, Option.bind_eq_bind, Option.bind_eq_some_iff] at hlines
      obtain ⟨u, hfirst, hrest⟩ := hlines
      obtain ⟨thread, hthread⟩ := Option.isSome_iff_exists.mp hcurrent
      cases hheader : isBacktraceThreadHeader line with
      | true =>
          simp only [backtraceLine, hheader, if_true, Option.some.injEq] at hfirst
          subst hfirst
          obtain ⟨hsome, hlength⟩ := ih rfl hrest
          refine ⟨hsome, ?_⟩
          rw [hlength, List.countP_cons_of_pos hheader, BacktraceState.result, hthread]
          simp only [List.length_append, Option.toList_some, List.length_singleton]
          omega
      | false =>
          obtain ⟨threads, current⟩ := s
          obtain rfl : current = some thread := hthread
          rw [backtraceLine_of_thread hheader] at hfirst
          split_ifs at hfirst
          obtain rfl := Option.some.inj hfirst
          obtain ⟨hsome, hlength⟩ := ih rfl hrest
          refine ⟨hsome, ?_⟩
          rw [hlength, List.countP_cons_of_neg (by simp [hheader])]

theorem isSome_strstr_iff (needle text : CString) :
    (strstr needle text).isSome = true ↔ needle <:+: text := by
  refine ⟨fun hsome => ?_, fun hinfix => ?_⟩
  · by_contra hnot
    have hnone := strstr_eq_none_of_not_infix hnot
    rw [hnone] at hsome
    cases hsome
  · exact Option.isSome_iff_ne_none.mpr fun hnone => strstr_eq_none hnone hinfix

/-- The newline at the end of a line adds no word. -/
theorem infix_concat_newline {word : CString} (hword : word ≠ []) (hnewline : newline ∉ word)
    (text : CString) : word <:+: text ++ [newline] ↔ word <:+: text := by
  rw [List.infix_concat_iff, List.suffix_concat_iff]
  refine ⟨?_, .inr⟩
  rintro ((hnil | ⟨front, rfl, -⟩) | hinfix)
  · exact absurd hnil hword
  · simp at hnewline
  · exact hinfix

/-- The number behind a `#` decides whether there is a frame. -/
theorem isSome_frame_hash (p : CString) :
    ((lineFrame (hash :: p ++ [newline])).frame?).isSome = true ↔
      p.head?.any isdigit = true ∧ (digitsValue (p.takeWhile isdigit) : ℤ) ≤ intMax := by
  have hnewline : isdigit newline = false := by decide
  have hblanks : skipBlanks (hash :: p ++ [newline]) = hash :: p ++ [newline] :=
    List.dropWhile_cons_of_neg (by decide)
  have hhead : (p ++ [newline]).head?.any isdigit = p.head?.any isdigit := by
    cases p with
    | nil => simpa using hnewline
    | cons c p => rfl
  have hdigits : (p ++ [newline]).takeWhile isdigit = p.takeWhile isdigit := by
    rw [List.takeWhile_append]
    split_ifs with hall
    · have hself := (List.takeWhile_prefix isdigit).eq_of_length hall
      simp [hself, hnewline]
    · rfl
  have htext : frameText (hash :: p ++ [newline]) =
      if p.head?.any isdigit = true then some (p ++ [newline]) else none := by
    rw [frameText, hblanks]
    simp only [List.cons_append, true_and, hhead]
  rw [lineFrame, List.cons_append, List.head?_cons, if_pos rfl, gdbOutputStackFrameParse,
    ← List.cons_append, htext]
  by_cases hdigit : p.head?.any isdigit = true
  · simp only [hdigit, if_true, hdigits]
    split_ifs with hlarge
    · exact iff_of_false Bool.false_ne_true (fun hfits => absurd hfits.2 (Int.not_le.mpr hlarge))
    · exact iff_of_true rfl ⟨trivial, Int.not_lt.mp hlarge⟩
  · simp only [hdigit]
    exact iff_of_false Bool.false_ne_true fun hfits => Bool.false_ne_true hfits.1

/-- A line that begins with `#` is a header when it has both words. -/
theorem isHeader_hash (p : CString) :
    isBacktraceThreadHeader (hash :: p ++ [newline]) = true ↔
      cstr "===" <:+: hash :: p ∧ cstr "Thread" <:+: hash :: p := by
  have hblanks : skipBlanks (hash :: p ++ [newline]) = hash :: p ++ [newline] :=
    List.dropWhile_cons_of_neg (by decide)
  rw [isBacktraceThreadHeader, hblanks, Bool.and_eq_true, isSome_strstr_iff, isSome_strstr_iff,
    infix_concat_newline (by decide +kernel) (by decide +kernel),
    infix_concat_newline (by decide +kernel) (by decide +kernel)]

theorem isFrameLine_iff (symbol : CString) :
    IsFrameLine symbol ↔ newline ∉ symbol ∧
      isBacktraceThreadHeader (symbol ++ [newline]) = false ∧
      ((lineFrame (symbol ++ [newline])).frame?).isSome = true := by
  rw [← Bool.not_eq_true]
  constructor
  · rintro ⟨hnewline, hheader, p, rfl, hnumber⟩
    exact ⟨hnewline, fun hyes => hheader ((isHeader_hash p).mp hyes),
      (isSome_frame_hash p).mpr hnumber⟩
  · rintro ⟨hnewline, hheader, hframe⟩
    have hhash : (symbol ++ [newline]).head? = some hash := by
      by_contra hother
      rw [lineFrame, if_neg hother] at hframe
      cases hframe
    cases symbol with
    | nil => exact absurd hhash (by decide)
    | cons c p =>
        obtain rfl : c = hash := Option.some.inj hhash
        exact ⟨hnewline, fun hyes => hheader ((isHeader_hash p).mpr hyes), p, rfl,
          (isSome_frame_hash p).mp hframe⟩

/-- The lines that frames were found in are those that have one. -/
theorem map_rawLine (lines : List CString) :
    (lines.filterMap fun line => (lineFrame line).frame?).map StackFrame.rawLine =
      lines.filter fun line => ((lineFrame line).frame?).isSome := by
  induction lines with
  | nil => rfl
  | cons line lines ih =>
      cases hframe : (lineFrame line).frame? with
      | none => simp [hframe, ih]
      | some f => simp [hframe, ih, rawLine_of_lineFrame hframe]

/-- The thread that the header of a dump begins. -/
def dumpedThread : ThreadInfo :=
  ⟨0, backtraceThreadNameFromLine (currentThreadHeader ++ [newline]), 0, []⟩

/-- The header of a dump is one. -/
theorem backtraceParse_stackdump (symbols : List CString) :
    backtraceParse (stackdumpCurrentThread symbols) =
      ((getlines (symbols.flatMap fun symbol => symbol ++ [newline])).foldlM backtraceLine
        ⟨[], some dumpedThread⟩).map BacktraceState.result := by
  have hnewline : newline ∉ currentThreadHeader := by decide +kernel
  have hheader : isBacktraceThreadHeader (currentThreadHeader ++ [newline]) = true := by
    decide +kernel
  rw [backtraceParse, stackdumpCurrentThread, List.append_assoc, List.singleton_append,
    getlines_line hnewline, List.foldlM_cons, backtraceLine, if_pos hheader]
  rfl

/-- What a dump is read as when it gives one thread. -/
theorem backtraceParse_eq_singleton {symbols lines : List CString} {thread : ThreadInfo}
    (hread : getlines (symbols.flatMap fun symbol => symbol ++ [newline]) = lines)
    (hparse : backtraceParse (stackdumpCurrentThread symbols) = some [thread]) :
    (∀ line ∈ lines, isBacktraceThreadHeader line = false) ∧
      thread.frames.map StackFrame.rawLine =
        lines.filter fun line => ((lineFrame line).frame?).isSome := by
  rw [backtraceParse_stackdump, hread, Option.map_eq_some_iff] at hparse
  obtain ⟨s, hlines, hresult⟩ := hparse
  obtain ⟨hcurrent, hlength⟩ := length_of_foldlM (s := ⟨[], some dumpedThread⟩) rfl hlines
  obtain ⟨last, hlast⟩ := Option.isSome_iff_exists.mp hcurrent
  have hcount : lines.countP isBacktraceThreadHeader = 0 := by
    have hsizes := congrArg List.length hresult
    rw [BacktraceState.result, hlast, List.length_append] at hsizes
    simp only [Option.toList_some, List.length_singleton, List.length_nil] at hsizes hlength
    omega
  have hno : ∀ line ∈ lines, isBacktraceThreadHeader line = false := fun line hline =>
    Bool.eq_false_iff.mpr (List.countP_eq_zero.mp hcount line hline)
  obtain ⟨-, rfl⟩ := (foldlM_of_no_header hno [] dumpedThread s).mp hlines
  obtain rfl := List.singleton_inj.mp hresult
  exact ⟨hno, map_rawLine lines⟩

/-- **A stack dump is read back** exactly when each symbol line is one that is read as a
frame. -/
theorem readsBack_iff (symbols : List CString) :
    ReadsBack symbols ↔ ∀ symbol ∈ symbols, IsFrameLine symbol := by
  constructor
  · rintro ⟨thread, hparse, hframes⟩ symbol hsymbol
    obtain ⟨hno, hraw⟩ := backtraceParse_eq_singleton rfl hparse
    rw [hframes] at hraw
    have hnewline : ∀ symbol ∈ symbols, newline ∉ symbol := by
      intro symbol hsymbol
      have hmem := List.mem_map_of_mem (f := fun symbol => symbol ++ [newline]) hsymbol
      rw [hraw] at hmem
      have hlast := newline_notMem_dropLast (List.mem_filter.mp hmem).1
      rwa [List.dropLast_concat] at hlast
    rw [getlines_flatMap hnewline] at hno hraw
    have hmem := List.mem_map_of_mem (f := fun symbol => symbol ++ [newline]) hsymbol
    exact (isFrameLine_iff symbol).mpr ⟨hnewline symbol hsymbol, hno _ hmem,
      List.filter_eq_self.mp hraw.symm _ hmem⟩
  · intro hsymbols
    have hlines := fun symbol hmem => (isFrameLine_iff symbol).mp (hsymbols symbol hmem)
    have hno : ∀ line ∈ symbols.map (fun symbol => symbol ++ [newline]),
        isBacktraceThreadHeader line = false := by
      intro line hline
      obtain ⟨symbol, hmem, rfl⟩ := List.mem_map.mp hline
      exact (hlines symbol hmem).2.1
    have hall : ∀ line ∈ symbols.map (fun symbol => symbol ++ [newline]),
        ((lineFrame line).frame?).isSome = true := by
      intro line hline
      obtain ⟨symbol, hmem, rfl⟩ := List.mem_map.mp hline
      exact (hlines symbol hmem).2.2
    have hfold := (foldlM_of_no_header hno [] dumpedThread _).mpr
      ⟨fun line hline heq => by simpa [heq, FrameParse.frame?] using hall line hline, rfl⟩
    have hparse := backtraceParse_stackdump symbols
    rw [getlines_flatMap fun symbol hmem => (hlines symbol hmem).1, hfold] at hparse
    exact ⟨_, hparse, (map_rawLine _).trans (List.filter_eq_self.mpr hall)⟩

/-- What `backtrace_symbols` gives for a frame begins with its module, and is no frame. -/
theorem not_readsBack_module : ¬ ReadsBack [cstr "./a.out(main+0x1d) [0x401136]"] := by
  rintro ⟨thread, hparse, hframes⟩
  have hfew : (backtraceParse (stackdumpCurrentThread
      [cstr "./a.out(main+0x1d) [0x401136]"])).map (List.map fun thread => thread.frames.length) =
        some [0] := by
    decide +kernel
  rw [hparse] at hfew
  have hnone : thread.frames = [] := by simpa using hfew
  rw [hnone] at hframes
  cases hframes

end BasC
