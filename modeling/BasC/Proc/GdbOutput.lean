/-
# The output of gdb

`gdb_output_parse` reads the output of `thread apply all bt`. It asks of each line whether it is
noise or the header of a thread, and takes the other lines for frames of the last thread. The
parsers skip the blanks in front of a line, and so do these tests, but for the one that looks for
a frame: it wants the `#` to be the first character.
-/

import BasC.Base.StrLines
import BasC.Proc.Backtrace

namespace BasC

open CChar

/-- The lines that `while (str_getline(&line, &cap, in) > 0)` reads, as bytes. -/
def byteLines : List UInt8 → List (List UInt8)
  | [] => []
  | byte :: bytes =>
      if byte = 10 then [byte] :: byteLines bytes
      else
        match byteLines bytes with
        | [] => [[byte]]
        | line :: lines => (byte :: line) :: lines

/-- Each as a string: the buffer ends at its first NUL. -/
def readLines (bytes : List UInt8) : List CString := (byteLines bytes).map textOf

/-- The name of a thread: what is between the first two quotes. -/
def threadName (line : CString) : CString :=
  match strchr line doubleQuote with
  | none => []
  | some (_, q) =>
      match strchr q.tail doubleQuote with
      | none => []
      | some (name, _) => name

/-- The number behind `(LWP `, or 0. -/
def threadLwp (p : CString) : ℤ :=
  match strstr (cstr "(LWP ") p with
  | none => 0
  | some (_, lwp) => if (lwp.drop 5).head?.any isdigit then strtolInt (lwp.drop 5) else 0

/-- `gdb_output_thread_info_parse`. -/
def gdbOutputThreadInfoParse (line : CString) : Option ThreadInfo :=
  match dropWord (cstr "Thread ") (skipBlanks line) with
  | none => none
  | some p =>
      if p.head?.any isdigit then
        some ⟨strtolInt p, threadName line, threadLwp (p.dropWhile isdigit), []⟩
      else none

/-- `is_gdb_noise_line`. For the second text 47 characters are compared, two more than it has, so
the line has to end behind it. -/
def isGdbNoiseLine (line : CString) : Bool :=
  let p := skipBlanks line
  (cstr "[New LWP ").isPrefixOf p ||
    p.take 47 = cstr "[Thread debugging using libthread_db enabled]" ||
    (cstr "Using host libthread_db library ").isPrefixOf p

/-- `is_thread_header`. -/
def isThreadHeader (line : CString) : Bool := (cstr "Thread ").isPrefixOf (skipBlanks line)

/-- One round of the loop of `gdb_output_parse`; `none` when a frame number overflows. -/
def gdbOutputLine (s : BacktraceState) (line : CString) : Option BacktraceState :=
  if isGdbNoiseLine line then some s
  else if isThreadHeader line then some ⟨s.result, gdbOutputThreadInfoParse line⟩
  else
    match s.current with
    | none => some s
    | some thread =>
        if line.head? = some hash then
          match gdbOutputStackFrameParse line with
          | .noFrame => some s
          | .overflow => none
          | .frame f =>
              some { s with current := some { thread with frames := thread.frames ++ [f] } }
        else some s

/-- `gdb_output_parse`. -/
def gdbOutputParse (bytes : List UInt8) : Option (List ThreadInfo) :=
  ((readLines bytes).foldlM gdbOutputLine ⟨[], none⟩).map BacktraceState.result

/-- A line that begins with `Thread `, and the lines up to the next one. -/
structure ThreadSection where
  header : CString
  lines : List CString
  deriving DecidableEq

/-- The lines up to the next line that begins with `Thread `. -/
def sectionLines (lines : List CString) : List CString := lines.takeWhile (¬ isThreadHeader ·)

/-- The sections of a text; the lines in front of the first are in none of them. -/
def sections : List CString → List ThreadSection
  | [] => []
  | line :: lines =>
      if isThreadHeader line then ⟨line, sectionLines lines⟩ :: sections lines else sections lines

/-- The sections of threads. -/
def threadSections (lines : List CString) : List ThreadSection :=
  (sections lines).filter fun part => (gdbOutputThreadInfoParse part.header).isSome

/-- The thread of a section: its frames are what is found in the lines with a frame. -/
def ThreadSection.Has (part : ThreadSection) (thread : ThreadInfo) : Prop :=
  gdbOutputThreadInfoParse part.header = some { thread with frames := [] } ∧
    (part.lines.map gdbOutputStackFrameParse).filter (· ≠ .noFrame) = thread.frames.map .frame

/-- Each section of a thread gives a thread with its frames. -/
def AttributesFrames (bytes : List UInt8) : Prop :=
  ∃ threads, gdbOutputParse bytes = some threads ∧
    (threadSections (readLines bytes)).Forall₂ ThreadSection.Has threads

/-- The frame of a line begins at its first character, and its number fits an `int`. -/
def FrameAtMargin (line : CString) : Prop :=
  ∀ p, frameText line = some p →
    line.head? = some hash ∧ (digitsValue (p.takeWhile isdigit) : ℤ) ≤ intMax

theorem linesOf_byteLines (bytes : List UInt8) : LinesOf bytes (byteLines bytes) := by
  induction bytes with
  | nil => exact .nil
  | cons byte bytes ih =>
      rw [byteLines]
      split_ifs with hbyte
      · subst hbyte
        exact ih.cons List.not_mem_nil
      · cases hlines : byteLines bytes with
        | nil =>
            rw [hlines] at ih
            obtain rfl := ih.flatten
            exact .last (List.cons_ne_nil _ _) (by simpa using Ne.symm hbyte)
        | cons line lines =>
            rw [hlines] at ih
            exact ih.cons_byte hbyte

def CChar.upperT : CChar := ⟨84, by decide⟩
def CChar.upperU : CChar := ⟨85, by decide⟩

theorem head?_of_isPrefixOf {c : CChar} {word p : CString}
    (hword : (c :: word).isPrefixOf p = true) : p.head? = some c := by
  obtain ⟨rest, rfl⟩ := List.isPrefixOf_iff_prefix.mp hword
  rfl

theorem head?_of_isThreadHeader {line : CString} (hline : isThreadHeader line = true) :
    (skipBlanks line).head? = some upperT := by
  have hword : cstr "Thread " = upperT :: cstr "hread " := rfl
  rw [isThreadHeader, hword] at hline
  exact head?_of_isPrefixOf hline

theorem head?_of_isGdbNoiseLine {line : CString} (hline : isGdbNoiseLine line = true) :
    (skipBlanks line).head? = some openBracket ∨ (skipBlanks line).head? = some upperU := by
  have hlwp : cstr "[New LWP " = openBracket :: cstr "New LWP " := rfl
  have hdebugging : cstr "[Thread debugging using libthread_db enabled]" =
      openBracket :: cstr "Thread debugging using libthread_db enabled]" := rfl
  have husing : cstr "Using host libthread_db library " =
      upperU :: cstr "sing host libthread_db library " := rfl
  rw [isGdbNoiseLine, Bool.or_eq_true, Bool.or_eq_true, decide_eq_true_iff, hlwp, hdebugging,
    husing] at hline
  rcases hline with (hline | hline) | hline
  · exact .inl (head?_of_isPrefixOf hline)
  · have hfront := hline ▸ List.take_prefix 47 (skipBlanks line)
    exact .inl (head?_of_isPrefixOf (List.isPrefixOf_iff_prefix.mpr hfront))
  · exact .inr (head?_of_isPrefixOf hline)

theorem isThreadHeader_of_isGdbNoiseLine {line : CString} (hline : isGdbNoiseLine line = true) :
    isThreadHeader line = false := by
  rw [← Bool.not_eq_true]
  intro hheader
  have hhead := head?_of_isThreadHeader hheader
  rcases head?_of_isGdbNoiseLine hline with hnoise | hnoise
  · exact absurd (hhead.symm.trans hnoise) (by decide)
  · exact absurd (hhead.symm.trans hnoise) (by decide)

theorem lineFrame_of_isGdbNoiseLine {line : CString} (hline : isGdbNoiseLine line = true) :
    lineFrame line = .noFrame := by
  refine if_neg fun hhash => ?_
  obtain ⟨p, rfl⟩ := List.head?_eq_some_iff.mp hhash
  have hskip : skipBlanks (hash :: p) = hash :: p := List.dropWhile_cons_of_neg (by decide)
  have hnoise := head?_of_isGdbNoiseLine hline
  rw [hskip] at hnoise
  rcases hnoise with hnoise | hnoise
  · exact absurd (Option.some.inj hnoise) (by decide)
  · exact absurd (Option.some.inj hnoise) (by decide)

/-- A header begins a thread, or ends the last one. -/
theorem gdbOutputLine_of_header {line : CString} (hline : isThreadHeader line = true)
    (s : BacktraceState) :
    gdbOutputLine s line = some ⟨s.result, gdbOutputThreadInfoParse line⟩ := by
  have hnoise : isGdbNoiseLine line = false := by
    rw [← Bool.not_eq_true]
    intro hnoise
    rw [isThreadHeader_of_isGdbNoiseLine hnoise] at hline
    cases hline
  simp only [gdbOutputLine, hnoise, hline, Bool.false_eq_true, if_false, if_true]

/-- The frames that are added to a thread. -/
def ThreadInfo.addFrames (thread : ThreadInfo) (frames : List StackFrame) : ThreadInfo :=
  { thread with frames := thread.frames ++ frames }

/-- Another line gives its frame to the thread. -/
theorem gdbOutputLine_of_thread {line : CString} (hline : isThreadHeader line = false)
    (threads : List ThreadInfo) (thread : ThreadInfo) :
    gdbOutputLine ⟨threads, some thread⟩ line =
      if lineFrame line = .overflow then none
      else some ⟨threads, some (thread.addFrames (lineFrame line).frame?.toList)⟩ := by
  by_cases hnoise : isGdbNoiseLine line = true
  · simp [gdbOutputLine, hnoise, lineFrame_of_isGdbNoiseLine hnoise, FrameParse.frame?,
      ThreadInfo.addFrames]
  · by_cases hhash : line.head? = some hash
    · simp only [gdbOutputLine, hnoise, hline, Bool.false_eq_true, if_false, lineFrame, hhash,
        if_true]
      cases gdbOutputStackFrameParse line <;> simp [FrameParse.frame?, ThreadInfo.addFrames]
    · simp [gdbOutputLine, hnoise, hline, lineFrame, hhash, FrameParse.frame?, ThreadInfo.addFrames]

theorem gdbOutputLine_of_none {line : CString} (hline : isThreadHeader line = false)
    (threads : List ThreadInfo) :
    gdbOutputLine ⟨threads, none⟩ line = some ⟨threads, none⟩ := by
  by_cases hnoise : isGdbNoiseLine line = true
  · simp [gdbOutputLine, hnoise]
  · simp [gdbOutputLine, hnoise, hline]

/-! ## All lines -/

/-- No frame that begins at the first character of its line has a number that overflows. -/
def NoOverflow (lines : List CString) : Prop := ∀ line ∈ lines, lineFrame line ≠ .overflow

/-- The frames that begin at the first character of their lines. -/
def lineFrames (lines : List CString) : List StackFrame :=
  lines.filterMap fun line => (lineFrame line).frame?

/-- What a section gives. -/
def ThreadSection.thread (part : ThreadSection) : Option ThreadInfo :=
  (gdbOutputThreadInfoParse part.header).map (·.addFrames (lineFrames part.lines))

@[simp] theorem ThreadInfo.addFrames_nil (thread : ThreadInfo) : thread.addFrames [] = thread := by
  rw [addFrames, List.append_nil]

@[simp] theorem ThreadInfo.addFrames_append (thread : ThreadInfo) (first second : List StackFrame) :
    (thread.addFrames first).addFrames second = thread.addFrames (first ++ second) := by
  simp only [addFrames, List.append_assoc]

theorem lineFrames_cons (line : CString) (lines : List CString) :
    lineFrames (line :: lines) = (lineFrame line).frame?.toList ++ lineFrames lines := by
  rw [lineFrames, List.filterMap_cons]
  cases (lineFrame line).frame? <;> rfl

theorem sectionLines_of_header {line : CString} (hline : isThreadHeader line = true)
    (lines : List CString) : sectionLines (line :: lines) = [] :=
  List.takeWhile_cons_of_neg (by simp [hline])

theorem sectionLines_of_not_header {line : CString} (hline : isThreadHeader line = false)
    (lines : List CString) : sectionLines (line :: lines) = line :: sectionLines lines :=
  List.takeWhile_cons_of_pos (by simp [hline])

theorem sections_of_header {line : CString} (hline : isThreadHeader line = true)
    (lines : List CString) :
    sections (line :: lines) = ⟨line, sectionLines lines⟩ :: sections lines := if_pos hline

theorem sections_of_not_header {line : CString} (hline : isThreadHeader line = false)
    (lines : List CString) : sections (line :: lines) = sections lines := by
  rw [sections, hline]
  rfl

theorem threadSections_of_header {line : CString} (hline : isThreadHeader line = true)
    (lines : List CString) :
    threadSections (line :: lines) =
      if (gdbOutputThreadInfoParse line).isSome then
        ⟨line, sectionLines lines⟩ :: threadSections lines
      else threadSections lines := by
  rw [threadSections, sections_of_header hline, List.filter_cons]
  rfl

theorem threadSections_of_not_header {line : CString} (hline : isThreadHeader line = false)
    (lines : List CString) : threadSections (line :: lines) = threadSections lines := by
  rw [threadSections, sections_of_not_header hline]
  rfl

/-- **What the loop gives**, from any state on. -/
theorem foldlM_gdbOutputLine (lines : List CString) (s : BacktraceState)
    (threads : List ThreadInfo) :
    (lines.foldlM gdbOutputLine s).map BacktraceState.result = some threads ↔
      (s.current.isSome = true → NoOverflow (sectionLines lines)) ∧
        (∀ part ∈ threadSections lines, NoOverflow part.lines) ∧
        threads = s.threads ++
          (s.current.map (·.addFrames (lineFrames (sectionLines lines)))).toList ++
          (sections lines).filterMap ThreadSection.thread := by
  induction lines generalizing s with
  | nil =>
      have hnil : sectionLines [] = [] ∧ sections [] = [] ∧ threadSections [] = [] :=
        ⟨rfl, rfl, rfl⟩
      rw [hnil.1, hnil.2.1, hnil.2.2]
      simp [NoOverflow, lineFrames, BacktraceState.result, @eq_comm _ threads]
  | cons line lines ih =>
      rw [List.foldlM_cons]
      by_cases hline : isThreadHeader line = true
      · rw [gdbOutputLine_of_header hline, Option.bind_eq_bind, Option.bind_some, ih,
          sectionLines_of_header hline, threadSections_of_header hline, sections_of_header hline]
        cases hparse : gdbOutputThreadInfoParse line <;>
          simp [hparse, ThreadSection.thread, BacktraceState.result, NoOverflow, lineFrames,
            and_assoc]
      · rw [Bool.not_eq_true] at hline
        rw [sectionLines_of_not_header hline, threadSections_of_not_header hline,
          sections_of_not_header hline]
        obtain ⟨found, current⟩ := s
        cases current with
        | none =>
            rw [gdbOutputLine_of_none hline, Option.bind_eq_bind, Option.bind_some, ih]
            simp
        | some thread =>
            rw [gdbOutputLine_of_thread hline]
            by_cases hoverflow : lineFrame line = .overflow
            · simp [hoverflow, NoOverflow]
            · rw [if_neg hoverflow, Option.bind_eq_bind, Option.bind_some, ih]
              simp [hoverflow, NoOverflow, lineFrames_cons]

/-- **What `gdb_output_parse` gives**: a thread for each section, with the frames that begin at
the first character of their lines. -/
theorem gdbOutputParse_eq_some_iff (bytes : List UInt8) (threads : List ThreadInfo) :
    gdbOutputParse bytes = some threads ↔
      (∀ part ∈ threadSections (readLines bytes), NoOverflow part.lines) ∧
        threads = (sections (readLines bytes)).filterMap ThreadSection.thread := by
  rw [gdbOutputParse, foldlM_gdbOutputLine]
  simp

theorem gdbOutputStackFrameParse_of_none {line : CString} (htext : frameText line = none) :
    gdbOutputStackFrameParse line = .noFrame := by
  rw [gdbOutputStackFrameParse, htext]

/-- A line with a `#` and a number is a frame, if the number fits. -/
theorem gdbOutputStackFrameParse_of_some {line p : CString} (htext : frameText line = some p) :
    ((digitsValue (p.takeWhile isdigit) : ℤ) ≤ intMax ∧
        ∃ f, gdbOutputStackFrameParse line = .frame f) ∨
      (intMax < (digitsValue (p.takeWhile isdigit) : ℤ) ∧
        gdbOutputStackFrameParse line = .overflow) := by
  rw [gdbOutputStackFrameParse, htext]
  by_cases hfits : intMax < (digitsValue (p.takeWhile isdigit) : ℤ)
  · exact .inr ⟨hfits, if_pos hfits⟩
  · exact .inl ⟨Int.not_lt.mp hfits, _, if_neg hfits⟩

/-- What the loop makes of a line is what the parser makes of it, or nothing. -/
theorem lineFrame_eq (line : CString) :
    lineFrame line = gdbOutputStackFrameParse line ∨ lineFrame line = .noFrame := by
  rw [lineFrame]
  split_ifs
  · exact .inl rfl
  · exact .inr rfl

/-- What is found in a section is among what there is. -/
theorem lineFrames_sublist (lines : List CString) :
    ((lineFrames lines).map FrameParse.frame).Sublist
      ((lines.map gdbOutputStackFrameParse).filter (· ≠ .noFrame)) := by
  induction lines with
  | nil => exact .slnil
  | cons line lines ih =>
      rw [lineFrames_cons, List.map_append, List.map_cons, List.filter_cons]
      rcases lineFrame_eq line with hline | hline
      · rw [hline]
        cases gdbOutputStackFrameParse line with
        | noFrame => simpa [FrameParse.frame?] using ih
        | overflow => simpa [FrameParse.frame?] using ih.cons _
        | frame f => simpa [FrameParse.frame?] using ih
      · rw [hline]
        split_ifs
        · exact ih.cons _
        · exact ih

/-- A frame that is not found leaves too few. -/
theorem cons_ne_lineFrames (found : FrameParse) (lines : List CString) :
    found :: (lines.map gdbOutputStackFrameParse).filter (· ≠ .noFrame) ≠
      (lineFrames lines).map FrameParse.frame := by
  intro heq
  have hlength := (lineFrames_sublist lines).length_le
  rw [← heq, List.length_cons] at hlength
  exact absurd hlength (Nat.not_succ_le_self _)

/-- The frames of a section are all found, and none overflows, exactly if they begin at the first
character of their lines and their numbers fit. -/
theorem lineFrames_eq_iff (lines : List CString) :
    NoOverflow lines ∧ (lines.map gdbOutputStackFrameParse).filter (· ≠ .noFrame) =
        (lineFrames lines).map FrameParse.frame ↔
      ∀ line ∈ lines, FrameAtMargin line := by
  induction lines with
  | nil => simp [NoOverflow, lineFrames]
  | cons line lines ih =>
      rw [List.forall_mem_cons, ← ih, NoOverflow, List.forall_mem_cons, lineFrames_cons,
        List.map_append, List.map_cons, List.filter_cons]
      cases htext : frameText line with
      | none =>
          have hparse := gdbOutputStackFrameParse_of_none htext
          have hframe : lineFrame line = .noFrame := by
            rcases lineFrame_eq line with heq | heq
            · exact heq.trans hparse
            · exact heq
          simp [hparse, hframe, FrameAtMargin, htext, FrameParse.frame?, NoOverflow]
      | some p =>
          by_cases hhash : line.head? = some hash
          · have hframe : lineFrame line = gdbOutputStackFrameParse line := if_pos hhash
            rcases gdbOutputStackFrameParse_of_some htext with ⟨hfits, f, hparse⟩ | ⟨hfits, hparse⟩
            · simp [hframe, hparse, FrameAtMargin, htext, hhash, hfits, FrameParse.frame?,
                NoOverflow]
            · simp [hframe, hparse, FrameAtMargin, htext, hhash, hfits]
          · have hframe : lineFrame line = .noFrame := if_neg hhash
            have hfound : gdbOutputStackFrameParse line ≠ .noFrame := by
              rcases gdbOutputStackFrameParse_of_some htext with ⟨-, f, hparse⟩ | ⟨-, hparse⟩ <;>
                simp [hparse]
            refine iff_of_false (fun hall => ?_) fun hall => hhash (hall.1 p htext).1
            rw [if_pos (decide_eq_true hfound), hframe] at hall
            exact cons_ne_lineFrames _ lines hall.2

theorem frames_of_gdbOutputThreadInfoParse {line : CString} {thread : ThreadInfo}
    (hparse : gdbOutputThreadInfoParse line = some thread) : thread.frames = [] := by
  unfold gdbOutputThreadInfoParse at hparse
  split at hparse
  · cases hparse
  · split_ifs at hparse
    obtain rfl := Option.some.inj hparse
    rfl

/-- The threads of the sections have the frames that they are to have. -/
theorem forall₂_has_iff (parts : List ThreadSection) :
    (parts.filter fun part => (gdbOutputThreadInfoParse part.header).isSome).Forall₂
        ThreadSection.Has (parts.filterMap ThreadSection.thread) ↔
      ∀ part ∈ parts.filter fun part => (gdbOutputThreadInfoParse part.header).isSome,
        (part.lines.map gdbOutputStackFrameParse).filter (· ≠ .noFrame) =
          (lineFrames part.lines).map FrameParse.frame := by
  induction parts with
  | nil => simp
  | cons part parts ih =>
      rw [List.filter_cons, List.filterMap_cons, ThreadSection.thread]
      cases hparse : gdbOutputThreadInfoParse part.header with
      | none => simpa using ih
      | some thread =>
          have hframes := frames_of_gdbOutputThreadInfoParse hparse
          have hthread : { thread with frames := [] } = thread := by
            rw [← hframes]
          simp [ih, ThreadSection.Has, hparse, ThreadInfo.addFrames, hframes, hthread]

/-- **Every frame is attributed to its thread** exactly if the lines with frames have no blanks in
front, and no number that overflows. -/
theorem attributesFrames_iff (bytes : List UInt8) :
    AttributesFrames bytes ↔
      ∀ part ∈ threadSections (readLines bytes), ∀ line ∈ part.lines, FrameAtMargin line := by
  simp only [← lineFrames_eq_iff]
  constructor
  · rintro ⟨threads, hparse, hthreads⟩
    obtain ⟨hoverflow, rfl⟩ := (gdbOutputParse_eq_some_iff bytes threads).mp hparse
    exact fun part hpart => ⟨hoverflow part hpart, (forall₂_has_iff _).mp hthreads part hpart⟩
  · intro hall
    exact ⟨_, (gdbOutputParse_eq_some_iff bytes _).mpr ⟨fun part hpart => (hall part hpart).1, rfl⟩,
      (forall₂_has_iff _).mpr fun part hpart => (hall part hpart).2⟩

/-- Of a thread whose only frame is indented, the frame is lost. -/
theorem not_attributesFrames_indented :
    ¬ AttributesFrames (bytesOf (cstr "Thread 1\n" ++ cstr " #0  f ()\n")) := by
  rintro ⟨threads, hparse, hthreads⟩
  have hfound : gdbOutputParse (bytesOf (cstr "Thread 1\n" ++ cstr " #0  f ()\n")) =
      some [⟨1, [], 0, []⟩] := by decide +kernel
  have hsections : threadSections (readLines (bytesOf (cstr "Thread 1\n" ++
      cstr " #0  f ()\n"))) = [⟨cstr "Thread 1\n", [cstr " #0  f ()\n"]⟩] := by decide +kernel
  obtain rfl := Option.some.inj (hparse.symm.trans hfound)
  rw [hsections, List.forall₂_cons] at hthreads
  exact absurd hthreads.1.2 (by decide +kernel)

end BasC
