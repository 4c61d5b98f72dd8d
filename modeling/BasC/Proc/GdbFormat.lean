/-
# Printing the threads

`thread_info_list_format` prints the threads that `gdb_output_parse` has found. A header goes
through a buffer of 256 bytes, which cuts a long one and its newline with it. The lines of the
output are read with their newlines, and where neither ` at ` nor ` (` follows, the method of a
frame takes the newline along.
-/

import BasC.Proc.FrameLines
import BasC.Proc.GdbOutput

namespace BasC

open CChar

/-- `stackdump_color_schema_t`. -/
structure StackdumpColorSchema where
  reset : CString
  header : CString
  frameIndex : CString
  symbol : CString
  params : CString
  location : CString

/-- `thread_has_method`. -/
def threadHasMethod (thread : ThreadInfo) (methodSubstr : CString) : Bool :=
  thread.frames.any fun f =>
    f.method.any (fun method => (strstr methodSubstr method).isSome) ||
      (strstr methodSubstr f.rawLine).isSome

/-- The names of threads that are left out. -/
def isExcludedName (name : CString) : Bool :=
  name = cstr "pool-0" || name = cstr "pool-1" || name = cstr "pool-spawner" ||
    name = cstr "gmain" || name = cstr "gdbus" || (cstr "[pango]").isPrefixOf name ||
    name = cstr "libusb_event"

/-- `is_thread_included`. -/
def isThreadIncluded (thread : ThreadInfo) : Bool :=
  !isExcludedName thread.name && !threadHasMethod thread (cstr "HttpDaemon::serverLoop")

/-- The header of a thread, in full. -/
def threadHeader (thread : ThreadInfo) : CString :=
  if 0 < thread.lwp then
    cstr "Thread " ++ decimal thread.threadId ++ cstr " (LWP " ++ decimal thread.lwp ++
      cstr ") \"" ++ thread.name ++ cstr "\"" ++ [newline]
  else
    cstr "Thread " ++ decimal thread.threadId ++ cstr " \"" ++ thread.name ++ cstr "\"" ++ [newline]

/-- `thread_info_format`: the buffer has 256 bytes, one of them for the NUL. -/
def threadInfoFormat (schema : StackdumpColorSchema) (thread : ThreadInfo) : CString :=
  schema.header ++ (threadHeader thread).take 255 ++ schema.reset

/-- A field that is neither `NULL` nor empty. -/
def fieldText (field : Option CString) (shown : CString → CString) : CString :=
  match field with
  | none => []
  | some text => if text = [] then [] else shown text

/-- `stack_frame_format`, up to its newline. -/
def stackFrameText (schema : StackdumpColorSchema) (f : StackFrame) : CString :=
  schema.frameIndex ++ cstr "#" ++ decimal f.frameNumber ++ schema.reset ++
    fieldText f.address (fun address => cstr " " ++ address ++ cstr " in ") ++
    fieldText f.method (fun method => schema.symbol ++ method ++ schema.reset) ++
    fieldText f.params (fun params => cstr " " ++ schema.params ++ params ++ schema.reset) ++
    fieldText f.file fun file =>
      cstr " at " ++ schema.location ++
        (if 0 < f.line then file ++ cstr ":" ++ decimal f.line else file) ++ schema.reset

/-- `stack_frame_format`. -/
def stackFrameFormat (schema : StackdumpColorSchema) (f : StackFrame) : CString :=
  stackFrameText schema f ++ [newline]

/-- The loop of `thread_info_list_format`, with its `thread_index`. -/
def formatThreads (schema : StackdumpColorSchema) : ℕ → List ThreadInfo → CString
  | _, [] => []
  | threadIndex, thread :: threads =>
      if isThreadIncluded thread then
        (if 0 < threadIndex then [newline] else []) ++ threadInfoFormat schema thread ++
          thread.frames.flatMap (fun f => cstr "    " ++ stackFrameFormat schema f) ++
          formatThreads schema (threadIndex + 1) threads
      else formatThreads schema threadIndex threads

/-- `thread_info_list_format`. -/
def threadInfoListFormat (schema : StackdumpColorSchema) (threads : List ThreadInfo) : CString :=
  formatThreads schema 0 threads

/-- The schema without colors. -/
def emptySchema : StackdumpColorSchema := ⟨[], [], [], [], [], []⟩

/-- A text with a newline at its end and no other. -/
def IsLine (text : CString) : Prop := ∃ body, newline ∉ body ∧ text = body ++ [newline]

/-- The header of a thread, and its frames. -/
def threadLines (thread : ThreadInfo) : List CString :=
  threadInfoFormat emptySchema thread ::
    thread.frames.map fun f => cstr "    " ++ stackFrameFormat emptySchema f

/-- With a blank line between threads. -/
def outputLines (threads : List ThreadInfo) : List CString :=
  match threads.filter isThreadIncluded with
  | [] => []
  | thread :: more =>
      threadLines thread ++ more.flatMap fun thread => [newline] :: threadLines thread

/-- Each header and each frame is printed as one line. -/
def PrintsLines (bytes : List UInt8) : Prop :=
  ∃ threads, gdbOutputParse bytes = some threads ∧
    (∀ line ∈ outputLines threads, IsLine line) ∧
    getlines (threadInfoListFormat emptySchema threads) = outputLines threads

/-- The text from the symbol on, in the line of a frame. -/
def frameSymbol (line : CString) : CString :=
  match frameText line with
  | none => []
  | some p => symbolFrom (parseAddress (parseFrameNumber p).2).2

/-- The method does not reach a newline. -/
def MethodEnds (line : CString) : Prop :=
  newline ∈ frameSymbol line → cstr " at " <:+: frameSymbol line ∨ cstr " (" <:+: frameSymbol line

/-- The numbers of the frames of a section fit an `int`. -/
def NumbersFit (lines : List CString) : Prop :=
  ∀ line ∈ lines, line.head? = some hash →
    ∀ p, frameText line = some p → (digitsValue (p.takeWhile isdigit) : ℤ) ≤ intMax

/-- The header fits into the buffer. -/
def HeaderFits (header : CString) : Prop :=
  ∀ thread, gdbOutputThreadInfoParse header = some thread → (threadHeader thread).length ≤ 255

/-- The thread of a section is printed. -/
def ThreadSection.Included (part : ThreadSection) : Prop :=
  isExcludedName (threadName part.header) = false ∧
    ∀ line ∈ part.lines, line.head? = some hash → (frameText line).isSome = true →
      ¬ cstr "HttpDaemon::serverLoop" <:+: line

/-- There is no newline but at the end. -/
def EndsLine (text : CString) : Prop := newline ∉ text.dropLast

theorem EndsLine.front {front rest : CString} (htext : EndsLine (front ++ rest))
    (hrest : rest ≠ []) : newline ∉ front := fun hmem => htext (by
  rw [List.dropLast_append_of_ne_nil hrest]
  exact List.mem_append_left _ hmem)

theorem EndsLine.rest {text rest : CString} (htext : EndsLine text) (hrest : rest <:+ text) :
    EndsLine rest := by
  obtain ⟨front, rfl⟩ := hrest
  by_cases hne : rest = []
  · rw [hne]
    exact List.not_mem_nil
  · rw [EndsLine, List.dropLast_append_of_ne_nil hne] at htext
    exact fun hmem => htext (List.mem_append_right _ hmem)

theorem isLine_concat_iff (body : CString) : IsLine (body ++ [newline]) ↔ newline ∉ body := by
  constructor
  · rintro ⟨body', hbody, heq⟩
    rwa [List.append_cancel_right heq]
  · exact fun hbody => ⟨body, hbody, rfl⟩

/-- Lines that are printed one after the other are read back. -/
theorem getlines_flatten {lines : List CString} (hlines : ∀ line ∈ lines, IsLine line) :
    getlines lines.flatten = lines := by
  induction lines with
  | nil => exact getlines_nil
  | cons line lines ih =>
      obtain ⟨body, hbody, rfl⟩ := hlines line List.mem_cons_self
      rw [List.flatten_cons, List.append_assoc, List.singleton_append, getlines_line hbody,
        ih fun line' hmem => hlines line' (List.mem_cons_of_mem _ hmem)]

theorem bytesOf_textOf (bytes : List UInt8) : bytesOf (textOf bytes) <+: bytes := by
  induction bytes with
  | nil => exact List.nil_prefix
  | cons byte bytes ih =>
      rw [textOf]
      cases hbyte : CChar.ofByte? byte with
      | none => exact List.nil_prefix
      | some c =>
          obtain rfl := ofByte?_eq_some hbyte
          exact List.cons_prefix_cons.mpr ⟨rfl, ih⟩

/-- A line as it is read ends at its newline, also where a NUL cuts it. -/
theorem endsLine_of_mem_readLines {bytes : List UInt8} {line : CString}
    (hline : line ∈ readLines bytes) : EndsLine line := by
  obtain ⟨read, hread, rfl⟩ := List.mem_map.mp hline
  intro hmem
  have hlast := (linesOf_byteLines bytes).newline_last read hread
  have hfront : 10 ∈ (bytesOf (textOf read)).dropLast := by
    have hdrop : (bytesOf (textOf read)).dropLast = bytesOf (textOf read).dropLast :=
      List.map_dropLast.symm
    rw [hdrop]
    exact List.mem_map_of_mem hmem
  obtain ⟨more, hmore⟩ := bytesOf_textOf read
  rw [← hmore] at hlast
  cases more with
  | nil =>
      rw [List.append_nil] at hlast
      exact hlast hfront
  | cons byte more =>
      rw [List.dropLast_append_of_ne_nil (List.cons_ne_nil _ _)] at hlast
      exact hlast (List.mem_append_left _ (List.mem_of_mem_dropLast hfront))

theorem formatThreads_succ (threadIndex : ℕ) (threads : List ThreadInfo) :
    formatThreads emptySchema (threadIndex + 1) threads =
      ((threads.filter isThreadIncluded).flatMap fun thread =>
        [newline] :: threadLines thread).flatten := by
  induction threads generalizing threadIndex with
  | nil => rfl
  | cons thread threads ih =>
      rw [formatThreads, List.filter_cons]
      split_ifs with hincluded hindex
      · rw [ih, List.flatMap_cons, List.flatten_append, threadLines, List.flatten_cons,
          List.flatten_cons, List.flatMap_def]
        simp only [List.append_assoc]
      · exact absurd (Nat.succ_pos threadIndex) hindex
      · exact ih threadIndex

theorem threadInfoListFormat_eq (threads : List ThreadInfo) :
    threadInfoListFormat emptySchema threads = (outputLines threads).flatten := by
  rw [threadInfoListFormat]
  induction threads with
  | nil => rfl
  | cons thread threads ih =>
      rw [formatThreads, outputLines, List.filter_cons]
      split_ifs with hincluded hindex
      · exact absurd hindex (Nat.lt_irrefl 0)
      · rw [formatThreads_succ, List.nil_append, List.flatten_append, threadLines,
          List.flatten_cons, List.flatMap_def]
      · exact ih

theorem forall_mem_outputLines_iff (threads : List ThreadInfo) :
    (∀ line ∈ outputLines threads, IsLine line) ↔
      ∀ thread ∈ threads, isThreadIncluded thread = true →
        ∀ line ∈ threadLines thread, IsLine line := by
  have hblank : IsLine [newline] := ⟨[], List.not_mem_nil, rfl⟩
  have hfilter : (∀ thread ∈ threads, isThreadIncluded thread = true →
      ∀ line ∈ threadLines thread, IsLine line) ↔
        ∀ thread ∈ threads.filter isThreadIncluded, ∀ line ∈ threadLines thread, IsLine line := by
    simp only [List.mem_filter, and_imp]
  rw [hfilter, outputLines]
  cases threads.filter isThreadIncluded with
  | nil => simp
  | cons thread more =>
      simp only [List.forall_mem_append, List.forall_mem_flatMap, List.forall_mem_cons, hblank,
        true_and]

/-! ## The header -/

/-- The name of a thread is on the line of its header. -/
theorem newline_notMem_threadName {line : CString} (hline : EndsLine line) :
    newline ∉ threadName line := by
  unfold threadName
  split
  · exact List.not_mem_nil
  · rename_i before q hopen
    split
    · exact List.not_mem_nil
    · rename_i name rest hclose
      obtain ⟨hsplit, -, after, rfl⟩ := strchr_eq_some hopen
      obtain ⟨hname, -, behind, rfl⟩ := strchr_eq_some hclose
      rw [List.tail_cons] at hname
      have hsuffix : name ++ doubleQuote :: behind <:+ line := by
        rw [hsplit, hname]
        exact (List.suffix_cons _ _).trans (List.suffix_append _ _)
      exact (hline.rest hsuffix).front (List.cons_ne_nil _ _)

theorem name_of_gdbOutputThreadInfoParse {line : CString} {thread : ThreadInfo}
    (hparse : gdbOutputThreadInfoParse line = some thread) : thread.name = threadName line := by
  unfold gdbOutputThreadInfoParse at hparse
  split at hparse
  · cases hparse
  · split_ifs at hparse
    obtain rfl := Option.some.inj hparse
    rfl

/-- The header is one line if it fits, and has no newline if it does not. -/
theorem isLine_threadInfoFormat_iff {thread : ThreadInfo} (hname : newline ∉ thread.name) :
    IsLine (threadInfoFormat emptySchema thread) ↔ (threadHeader thread).length ≤ 255 := by
  obtain ⟨body, hbody, hheader⟩ :
      ∃ body, newline ∉ body ∧ threadHeader thread = body ++ [newline] := by
    have hwords : newline ∉ cstr "Thread " ∧ newline ∉ cstr " (LWP " ∧ newline ∉ cstr ") \"" ∧
        newline ∉ cstr " \"" ∧ newline ∉ cstr "\"" := by decide
    have hdecimal := newline_notMem_decimal
    rw [threadHeader]
    split_ifs
    · refine ⟨_, ?_, rfl⟩
      simp [hwords, hdecimal, hname]
    · refine ⟨_, ?_, rfl⟩
      simp [hwords, hdecimal, hname]
  have hformat : threadInfoFormat emptySchema thread = (body ++ [newline]).take 255 := by
    rw [threadInfoFormat, hheader]
    exact List.append_nil _
  rw [hformat, hheader]
  by_cases hfits : (body ++ [newline]).length ≤ 255
  · rw [List.take_of_length_le hfits]
    exact iff_of_true ((isLine_concat_iff body).mpr hbody) hfits
  · refine iff_of_false ?_ hfits
    rintro ⟨text, -, htext⟩
    have hshort : 255 ≤ body.length := by
      rw [List.length_append, List.length_singleton] at hfits
      omega
    rw [List.take_append_of_le_length hshort] at htext
    have hmem : newline ∈ body.take 255 := htext ▸ List.mem_append_right text List.mem_cons_self
    exact hbody (List.mem_of_mem_take hmem)

theorem skipBlanks_suffix (p : CString) : skipBlanks p <:+ p := List.dropWhile_suffix _

theorem dropWord_suffix {word p rest : CString} (hrest : dropWord word p = some rest) :
    rest <:+ p := by
  rw [dropWord] at hrest
  split_ifs at hrest
  exact Option.some.inj hrest ▸ List.drop_suffix _ _

theorem frameText_suffix {line p : CString} (htext : frameText line = some p) : p <:+ line := by
  have hskip := skipBlanks_suffix line
  rw [frameText] at htext
  cases htexts : skipBlanks line with
  | nil =>
      rw [htexts] at htext
      cases htext
  | cons c rest =>
      rw [htexts] at htext hskip
      simp only at htext
      split_ifs at htext
      obtain rfl := Option.some.inj htext
      exact (List.suffix_cons c rest).trans hskip

/-- Also where the last digit is given back, the text goes on behind the number. -/
theorem parseFrameNumber_suffix (p : CString) : (parseFrameNumber p).2 <:+ p := by
  rw [parseFrameNumber]
  split_ifs with hback
  · obtain ⟨hpos, -, hmod⟩ := hback
    have hne : p.takeWhile isdigit ≠ [] := by
      intro hnil
      rw [hnil] at hpos
      exact absurd hpos (Nat.lt_irrefl 0)
    obtain ⟨front, c, hdigits⟩ := (List.eq_nil_or_concat' _).resolve_left hne
    have hc : isdigit c = true := by
      have hmem : c ∈ p.takeWhile isdigit :=
        hdigits ▸ List.mem_append_right front List.mem_cons_self
      exact List.mem_takeWhile_imp hmem
    have hzero : c = CChar.digit 0 := by
      rw [hdigits, digitsValue_concat, digitValue] at hmod
      rw [isdigit, Bool.and_eq_true, decide_eq_true_iff, decide_eq_true_iff] at hc
      refine Subtype.ext (UInt8.toNat_inj.mp (show c.toNat = (CChar.digit 0).toNat from ?_))
      rw [CChar.toNat_digit]
      omega
    have hsplit : p = front ++ (CChar.digit 0 :: p.dropWhile isdigit) := by
      have happend := List.takeWhile_append_dropWhile (p := isdigit) (l := p)
      rw [hdigits, hzero, List.append_assoc, List.singleton_append] at happend
      exact happend.symm
    exact ⟨front, hsplit.symm⟩
  · exact List.dropWhile_suffix _

theorem parseAddress_suffix (p : CString) : (parseAddress p).2 <:+ p := by
  have hskip := skipBlanks_suffix p
  rw [parseAddress]
  split_ifs
  · exact ((List.dropWhile_suffix _).trans (List.drop_suffix _ _)).trans hskip
  · exact hskip

theorem symbolFrom_suffix (p : CString) : symbolFrom p <:+ p := by
  rw [symbolFrom]
  cases hword : dropWord (cstr "in ") (skipBlanks p) with
  | none => exact skipBlanks_suffix p
  | some rest => exact (dropWord_suffix hword).trans (skipBlanks_suffix p)

theorem frameSymbol_suffix (line : CString) : frameSymbol line <:+ line := by
  rw [frameSymbol]
  cases htext : frameText line with
  | none => exact List.nil_suffix
  | some p =>
      exact (((symbolFrom_suffix _).trans (parseAddress_suffix _)).trans
        (parseFrameNumber_suffix p)).trans (frameText_suffix htext)

/-- A frame has the fields that are found from the symbol on. -/
theorem eq_frameFrom_of_parse {line : CString} {f : StackFrame}
    (hparse : gdbOutputStackFrameParse line = .frame f) :
    (frameText line).isSome = true ∧ ∃ number behind,
      f = frameFrom number (parseAddress behind).1 (frameSymbol line) line := by
  cases htext : frameText line with
  | none =>
      rw [gdbOutputStackFrameParse_of_none htext] at hparse
      cases hparse
  | some p =>
      rcases gdbOutputStackFrameParse_of_some htext with ⟨hfits, -⟩ | ⟨-, hoverflow⟩
      · rw [gdbOutputStackFrameParse_of htext hfits rfl rfl, FrameParse.frame.injEq] at hparse
        refine ⟨rfl, (parseFrameNumber p).1, (parseFrameNumber p).2, ?_⟩
        rw [frameSymbol, htext]
        exact hparse.symm
      · rw [hoverflow] at hparse
        cases hparse

theorem newline_notMem_address {p address : CString}
    (haddress : (parseAddress p).1 = some address) : newline ∉ address := by
  rw [parseAddress] at haddress
  split_ifs at haddress with hstart
  obtain rfl := Option.some.inj haddress
  obtain ⟨hzero, hx⟩ := hstart
  obtain ⟨more, hmore⟩ := List.head?_eq_some_iff.mp hzero
  rw [hmore, List.tail_cons, startsX, Bool.or_eq_true, decide_eq_true_iff, decide_eq_true_iff] at hx
  have hhex (text : CString) : newline ∉ text.takeWhile isxdigit := fun hmem =>
    absurd (List.mem_takeWhile_imp hmem) (by decide)
  rw [hmore]
  rcases hx with hx | hx
  · obtain ⟨digits, rfl⟩ := List.head?_eq_some_iff.mp hx
    have hstart : newline ∉ [CChar.digit 0, lowerX] := by decide
    exact fun hmem => (List.mem_append.mp hmem).elim hstart (hhex digits)
  · obtain ⟨digits, rfl⟩ := List.head?_eq_some_iff.mp hx
    have hstart : newline ∉ [CChar.digit 0, upperX] := by decide
    exact fun hmem => (List.mem_append.mp hmem).elim hstart (hhex digits)

/-- The scan for the method stops exactly if there is a place to stop. -/
theorem splitMethod_snd_ne_nil_iff (p : CString) :
    (splitMethod p).2 ≠ [] ↔ cstr " at " <:+: p ∨ cstr " (" <:+: p := by
  induction p with
  | nil =>
      refine iff_of_false (fun hne => hne rfl) ?_
      rw [cstr_blank_at_blank, cstr_params]
      decide
  | cons c p ih =>
      rw [splitMethod, List.infix_cons_iff, List.infix_cons_iff]
      split_ifs with hstop
      · rw [Bool.or_eq_true, List.isPrefixOf_iff_prefix, List.isPrefixOf_iff_prefix] at hstop
        exact iff_of_true (List.cons_ne_nil c p) (hstop.imp .inl .inl)
      · rw [Bool.or_eq_true, List.isPrefixOf_iff_prefix, List.isPrefixOf_iff_prefix,
          not_or] at hstop
        simp only [hstop.1, hstop.2, false_or]
        exact ih

/-- The method has no newline exactly if it ends in front of it. -/
theorem newline_notMem_method_iff {line : CString} (hline : EndsLine line) :
    newline ∉ (splitMethod (frameSymbol line)).1 ↔ MethodEnds line := by
  have hsplit := splitMethod_append (frameSymbol line)
  have hends := hline.rest (frameSymbol_suffix line)
  rw [MethodEnds, ← splitMethod_snd_ne_nil_iff]
  by_cases hrest : (splitMethod (frameSymbol line)).2 = []
  · rw [hrest, List.append_nil] at hsplit
    simp only [hsplit, hrest, ne_eq, not_true_eq_false, imp_false]
  · rw [← hsplit] at hends
    exact iff_of_true (hends.front hrest) fun _ => hrest

/-- The arguments end in a parenthesis. -/
theorem getLast?_of_closesLast {params : CString} (hparams : ClosesLast params) :
    params.getLast? = some closeParen := by
  obtain ⟨inner, rfl, hcount, hfronts⟩ := hparams
  have hne : openParen ≠ closeParen := by decide
  rcases List.eq_nil_or_concat' inner with rfl | ⟨front, c, rfl⟩
  · exact absurd hcount (by decide)
  · have hfront := hfronts front (List.prefix_append front [c]) (by simp)
    have hc : c = closeParen := by
      by_contra hc
      rw [List.count_append, List.count_append, List.count_singleton, List.count_singleton,
        if_neg (by simpa using hc)] at hcount
      omega
    rw [hc, ← List.cons_append, List.getLast?_concat]

theorem newline_notMem_params {p params : CString} (hp : EndsLine p)
    (hparams : (parseParams p).1 = some params) : newline ∉ params := by
  obtain ⟨hcloses, blanks, rest, -, rfl⟩ := closesLast_of_parseParams hparams
  have hends := hp.rest (List.suffix_append blanks _)
  cases rest with
  | nil =>
      rw [List.append_nil] at hends
      intro hmem
      have hlast := getLast?_of_closesLast hcloses
      obtain ⟨front, rfl⟩ := List.getLast?_eq_some_iff.mp hlast
      rw [EndsLine, List.dropLast_concat] at hends
      rcases List.mem_append.mp hmem with hmem | hmem
      · exact hends hmem
      · exact absurd hmem (by decide)
  | cons c rest => exact hends.front (List.cons_ne_nil c rest)

theorem newline_notMem_splitColon {p file rest : CString}
    (hsplit : splitColon p = some (file, rest)) : newline ∉ file := by
  induction p generalizing file with
  | nil => cases hsplit
  | cons c p ih =>
      rw [splitColon] at hsplit
      split_ifs at hsplit with hbreak hcolon
      · obtain rfl := (Prod.mk.inj (Option.some.inj hsplit)).1
        exact List.not_mem_nil
      · obtain ⟨⟨inner, behind⟩, hinner, heq⟩ := Option.map_eq_some_iff.mp hsplit
        obtain ⟨rfl, rfl⟩ := Prod.mk.inj heq
        rw [List.mem_cons, not_or]
        exact ⟨fun hc => hbreak (.inl hc.symm), ih hinner⟩

theorem newline_notMem_file {p file : CString} (hfile : (parseFile p).1 = some file) :
    newline ∉ file := by
  unfold parseFile at hfile
  split at hfile
  · cases hfile
  · split at hfile
    · cases hfile
    · rename_i found rest hsplit
      split_ifs at hfile
      obtain rfl := Option.some.inj hfile
      exact newline_notMem_splitColon hsplit

/-! ## Their lines -/

theorem newline_notMem_fieldText {field : Option CString} {shown : CString → CString}
    (hshown : ∀ text ∈ field, newline ∉ shown text) : newline ∉ fieldText field shown := by
  unfold fieldText
  split
  · exact List.not_mem_nil
  · split_ifs
    · exact List.not_mem_nil
    · exact hshown _ rfl

/-- **A frame is one line** exactly if its method ends in front of the newline of its line. -/
theorem isLine_stackFrameFormat_iff {line : CString} {f : StackFrame} (hline : EndsLine line)
    (hparse : gdbOutputStackFrameParse line = .frame f) :
    IsLine (cstr "    " ++ stackFrameFormat emptySchema f) ↔ MethodEnds line := by
  obtain ⟨-, number, behind, rfl⟩ := eq_frameFrom_of_parse hparse
  have hends : EndsLine (splitMethod (frameSymbol line)).2 := by
    refine (hline.rest (frameSymbol_suffix line)).rest ?_
    exact ⟨_, splitMethod_append (frameSymbol line)⟩
  have hwords : newline ∉ cstr "    " ∧ newline ∉ cstr "#" ∧ newline ∉ cstr " " ∧
      newline ∉ cstr " in " ∧ newline ∉ cstr " at " ∧ newline ∉ cstr ":" := by decide
  have hdecimal := newline_notMem_decimal
  rw [stackFrameFormat, ← List.append_assoc, isLine_concat_iff, ← newline_notMem_method_iff hline]
  have haddress : newline ∉ fieldText (parseAddress behind).1
      fun address => cstr " " ++ address ++ cstr " in " :=
    newline_notMem_fieldText fun text htext => by
      simp [hwords, newline_notMem_address htext]
  have hparams : newline ∉ fieldText (parseParams (splitMethod (frameSymbol line)).2).1
      fun params => cstr " " ++ params :=
    newline_notMem_fieldText fun text htext => by
      simp [hwords, newline_notMem_params hends htext]
  have hfile (file : Option CString × ℤ) (hfile : ∀ text ∈ file.1, newline ∉ text) :
      newline ∉ fieldText file.1 fun text =>
        cstr " at " ++ (if 0 < file.2 then text ++ cstr ":" ++ decimal file.2 else text) :=
    newline_notMem_fieldText fun text htext => by
      split_ifs <;> simp [hwords, hdecimal, hfile text htext]
  have hmethod (method : CString) :
      newline ∉ fieldText (if method = [] then none else some method) (fun method => method) ↔
        newline ∉ method := by
    split_ifs with hnil
    · simp [fieldText, hnil]
    · simp [fieldText, hnil]
  simp only [stackFrameText, frameFrom, emptySchema, List.nil_append, List.append_nil,
    List.mem_append, not_or, hwords, hdecimal, haddress, hparams, hmethod, not_false_eq_true,
    true_and, and_true, and_iff_left_iff_imp]
  exact fun _ => hfile _ fun text htext => newline_notMem_file htext

theorem mem_of_mem_sections {lines : List CString} {part : ThreadSection}
    (hpart : part ∈ sections lines) : part.header ∈ lines ∧ ∀ line ∈ part.lines, line ∈ lines := by
  induction lines with
  | nil => cases hpart
  | cons line lines ih =>
      have hrest (hpart : part ∈ sections lines) :
          part.header ∈ line :: lines ∧ ∀ other ∈ part.lines, other ∈ line :: lines :=
        ⟨List.mem_cons_of_mem _ (ih hpart).1, fun other hother =>
          List.mem_cons_of_mem _ ((ih hpart).2 other hother)⟩
      rw [sections] at hpart
      split_ifs at hpart
      · rcases List.mem_cons.mp hpart with rfl | hpart
        · exact ⟨List.mem_cons_self, fun other hother =>
            List.mem_cons_of_mem _ ((List.takeWhile_prefix _).subset hother)⟩
        · exact hrest hpart
      · exact hrest hpart

theorem mem_lineFrames_iff {lines : List CString} {f : StackFrame} :
    f ∈ lineFrames lines ↔
      ∃ line ∈ lines, line.head? = some hash ∧ gdbOutputStackFrameParse line = .frame f := by
  have hframe (line : CString) : (lineFrame line).frame? = some f ↔
      line.head? = some hash ∧ gdbOutputStackFrameParse line = .frame f := by
    rw [lineFrame]
    split_ifs with hhash
    · cases gdbOutputStackFrameParse line <;> simp [FrameParse.frame?, hhash]
    · simp [FrameParse.frame?, hhash]
  simp only [lineFrames, List.mem_filterMap, hframe]

theorem numbersFit_iff (lines : List CString) : NumbersFit lines ↔ NoOverflow lines := by
  refine forall₂_congr fun line _ => ?_
  rw [lineFrame]
  split_ifs with hhash
  · cases htext : frameText line with
    | none => simp [gdbOutputStackFrameParse_of_none htext]
    | some p =>
        rcases gdbOutputStackFrameParse_of_some htext with ⟨hfits, f, hparse⟩ | ⟨hfits, hparse⟩
        · simp [hhash, hparse, hfits]
        · simp [hhash, hparse, hfits]
  · simp [hhash]

/-- A line with a frame in a section whose numbers fit. -/
theorem NumbersFit.exists_frame {lines : List CString} (hlines : NumbersFit lines) {line : CString}
    (hline : line ∈ lines) (hhash : line.head? = some hash)
    (htext : (frameText line).isSome = true) : ∃ f, gdbOutputStackFrameParse line = .frame f := by
  obtain ⟨p, hp⟩ := Option.isSome_iff_exists.mp htext
  rcases gdbOutputStackFrameParse_of_some hp with ⟨-, hframe⟩ | ⟨hoverflow, -⟩
  · exact hframe
  · exact absurd (hlines line hline hhash p hp) (Int.not_le.mpr hoverflow)

section Sections

variable {part : ThreadSection} {thread : ThreadInfo}

theorem ThreadSection.thread_eq_some (hthread : part.thread = some thread) :
    thread.name = threadName part.header ∧ thread.frames = lineFrames part.lines ∧
      ∃ bare, gdbOutputThreadInfoParse part.header = some bare ∧
        threadHeader bare = threadHeader thread := by
  obtain ⟨bare, hbare, rfl⟩ := Option.map_eq_some_iff.mp hthread
  have hname : (bare.addFrames (lineFrames part.lines)).name = bare.name := rfl
  refine ⟨hname.trans (name_of_gdbOutputThreadInfoParse hbare), ?_, bare, hbare, rfl⟩
  rw [ThreadInfo.addFrames, frames_of_gdbOutputThreadInfoParse hbare, List.nil_append]

/-- A method is looked for in the lines of the frames. -/
theorem threadHasMethod_iff (hfit : NumbersFit part.lines) (hthread : part.thread = some thread)
    (methodSubstr : CString) :
    threadHasMethod thread methodSubstr = true ↔
      ∃ line ∈ part.lines, line.head? = some hash ∧ (frameText line).isSome = true ∧
        methodSubstr <:+: line := by
  rw [threadHasMethod, List.any_eq_true, (part.thread_eq_some hthread).2.1]
  constructor
  · rintro ⟨f, hf, hfound⟩
    obtain ⟨line, hline, hhash, hparse⟩ := mem_lineFrames_iff.mp hf
    obtain ⟨htext, number, behind, rfl⟩ := eq_frameFrom_of_parse hparse
    refine ⟨line, hline, hhash, htext, ?_⟩
    rw [Bool.or_eq_true, Option.any_eq_true] at hfound
    rcases hfound with ⟨method, hmethod, hfound⟩ | hfound
    · rw [isSome_strstr_iff] at hfound
      have hfront : method <+: frameSymbol line := by
        simp only [frameFrom] at hmethod
        split_ifs at hmethod
        obtain rfl := Option.some.inj hmethod
        exact ⟨_, splitMethod_append _⟩
      exact hfound.trans (hfront.isInfix.trans (frameSymbol_suffix line).isInfix)
    · exact (isSome_strstr_iff _ _).mp hfound
  · rintro ⟨line, hline, hhash, htext, hfound⟩
    obtain ⟨f, hparse⟩ := hfit.exists_frame hline hhash htext
    refine ⟨f, mem_lineFrames_iff.mpr ⟨line, hline, hhash, hparse⟩, ?_⟩
    obtain ⟨-, number, behind, rfl⟩ := eq_frameFrom_of_parse hparse
    rw [Bool.or_eq_true]
    exact .inr ((isSome_strstr_iff _ _).mpr hfound)

theorem isThreadIncluded_iff (hfit : NumbersFit part.lines) (hthread : part.thread = some thread) :
    isThreadIncluded thread = true ↔ part.Included := by
  have hmethod := threadHasMethod_iff hfit hthread (cstr "HttpDaemon::serverLoop")
  rw [isThreadIncluded, Bool.and_eq_true, Bool.not_eq_true', Bool.not_eq_true',
    ← Bool.not_eq_true (threadHasMethod _ _), hmethod, (part.thread_eq_some hthread).1,
    ThreadSection.Included]
  simp only [not_exists, not_and]

/-- A thread is printed in lines exactly if its header fits and the methods of its frames end. -/
theorem forall_mem_threadLines_iff (hheader : EndsLine part.header)
    (hlines : ∀ line ∈ part.lines, EndsLine line) (hfit : NumbersFit part.lines)
    (hthread : part.thread = some thread) :
    (∀ line ∈ threadLines thread, IsLine line) ↔
      HeaderFits part.header ∧ ∀ line ∈ part.lines, line.head? = some hash → MethodEnds line := by
  obtain ⟨hname, hframes, bare, hbare, hheaders⟩ := part.thread_eq_some hthread
  have hfits : IsLine (threadInfoFormat emptySchema thread) ↔ HeaderFits part.header := by
    rw [isLine_threadInfoFormat_iff (hname ▸ newline_notMem_threadName hheader), HeaderFits, hbare,
      ← hheaders]
    simp
  rw [threadLines, List.forall_mem_cons, List.forall_mem_map, hfits, hframes]
  refine and_congr_right fun _ => ⟨fun hall line hline hhash => ?_, fun hall f hf => ?_⟩
  · cases htext : frameText line with
    | none =>
        have hsymbol : frameSymbol line = [] := by rw [frameSymbol, htext]
        intro hmem
        rw [hsymbol] at hmem
        cases hmem
    | some p =>
        obtain ⟨f, hparse⟩ := hfit.exists_frame hline hhash (by rw [htext, Option.isSome_some])
        exact (isLine_stackFrameFormat_iff (hlines line hline) hparse).mp
          (hall f (mem_lineFrames_iff.mpr ⟨line, hline, hhash, hparse⟩))
  · obtain ⟨line, hline, hhash, hparse⟩ := mem_lineFrames_iff.mp hf
    exact (isLine_stackFrameFormat_iff (hlines line hline) hparse).mpr (hall line hline hhash)

/-- A thread that is found in a section of the output is printed in lines, if it is printed. -/
theorem forall_mem_threadLines_of_section_iff {bytes : List UInt8}
    (hpart : part ∈ sections (readLines bytes)) (hthread : part.thread = some thread)
    (hfit : NumbersFit part.lines) :
    (isThreadIncluded thread = true → ∀ line ∈ threadLines thread, IsLine line) ↔
      (part.Included → HeaderFits part.header ∧
        ∀ line ∈ part.lines, line.head? = some hash → MethodEnds line) := by
  obtain ⟨hheader, hlines⟩ := mem_of_mem_sections hpart
  rw [isThreadIncluded_iff hfit hthread, forall_mem_threadLines_iff
    (endsLine_of_mem_readLines hheader)
    (fun line hline => endsLine_of_mem_readLines (hlines line hline)) hfit hthread]

end Sections

theorem mem_threadSections_iff (lines : List CString) (part : ThreadSection) :
    part ∈ threadSections lines ↔
      part ∈ sections lines ∧ ∃ thread, part.thread = some thread := by
  rw [threadSections, List.mem_filter, ThreadSection.thread]
  simp [Option.isSome_iff_exists]

/-- What is printed is read back as its lines exactly if every thread is printed in lines. -/
theorem getlines_threadInfoListFormat_iff (threads : List ThreadInfo) :
    ((∀ line ∈ outputLines threads, IsLine line) ∧
        getlines (threadInfoListFormat emptySchema threads) = outputLines threads) ↔
      ∀ thread ∈ threads, isThreadIncluded thread = true →
        ∀ line ∈ threadLines thread, IsLine line := by
  rw [threadInfoListFormat_eq, ← forall_mem_outputLines_iff]
  exact and_iff_left_of_imp getlines_flatten

/-- **Each header and each frame is printed as one line** exactly if the headers fit into their
buffer and the methods end in front of their newlines, for the threads that are printed. -/
theorem printsLines_iff (bytes : List UInt8) :
    PrintsLines bytes ↔ ∀ part ∈ threadSections (readLines bytes),
      NumbersFit part.lines ∧ (part.Included → HeaderFits part.header ∧
        ∀ line ∈ part.lines, line.head? = some hash → MethodEnds line) := by
  constructor
  · rintro ⟨threads, hparse, hprints⟩ part hin
    obtain ⟨hoverflow, rfl⟩ := (gdbOutputParse_eq_some_iff bytes threads).mp hparse
    have hfit := (numbersFit_iff _).mpr (hoverflow part hin)
    obtain ⟨hsection, thread, hthread⟩ := (mem_threadSections_iff _ part).mp hin
    refine ⟨hfit, (forall_mem_threadLines_of_section_iff hsection hthread hfit).mp ?_⟩
    exact (getlines_threadInfoListFormat_iff _).mp hprints thread
      (List.mem_filterMap.mpr ⟨part, hsection, hthread⟩)
  · intro hall
    refine ⟨_, (gdbOutputParse_eq_some_iff bytes _).mpr
      ⟨fun part hin => (numbersFit_iff _).mp (hall part hin).1, rfl⟩,
      (getlines_threadInfoListFormat_iff _).mpr ?_⟩
    intro thread hthread
    obtain ⟨part, hsection, hthread⟩ := List.mem_filterMap.mp hthread
    have hin := (mem_threadSections_iff _ part).mpr ⟨hsection, thread, hthread⟩
    obtain ⟨hfit, hprinted⟩ := hall part hin
    exact (forall_mem_threadLines_of_section_iff hsection hthread hfit).mpr hprinted

/-- `#0  <signal handler called>`, as in every dump of a crash: a blank line follows. -/
theorem not_printsLines_signal :
    ¬ PrintsLines (bytesOf (cstr "Thread 1\n" ++ cstr "#0  <signal handler called>\n")) := by
  rintro ⟨threads, hparse, hlines, -⟩
  let f : StackFrame := ⟨0, none, some (cstr "<signal handler called>\n"), none, none, 0,
    cstr "#0  <signal handler called>\n"⟩
  have hfound : gdbOutputParse (bytesOf (cstr "Thread 1\n" ++
      cstr "#0  <signal handler called>\n")) = some [⟨1, [], 0, [f]⟩] := by decide +kernel
  have hmem : cstr "    " ++ stackFrameFormat emptySchema f ∈ outputLines [⟨1, [], 0, [f]⟩] := by
    decide +kernel
  obtain rfl := Option.some.inj (hparse.symm.trans hfound)
  have hline := hlines _ hmem
  rw [stackFrameFormat, ← List.append_assoc, isLine_concat_iff] at hline
  exact hline (by decide +kernel)

end BasC
