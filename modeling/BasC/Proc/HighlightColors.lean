/-
# Colors do not change the text

A dump is printed with the sequences of a color schema around its parts. For an input without
escape characters, what is shown does not depend on the schema.
-/

import BasC.Base.Colors
import BasC.Lib.Transition
import BasC.Proc.Stackdump

namespace BasC

open CChar

/-- All sequences of the schema are colors. -/
structure StackdumpColorSchema.IsColors (schema : StackdumpColorSchema) : Prop where
  reset : IsColor schema.reset
  header : IsColor schema.header
  frameIndex : IsColor schema.frameIndex
  symbol : IsColor schema.symbol
  params : IsColor schema.params
  location : IsColor schema.location

theorem isColors_default : stackdumpColorSchemaDefault.IsColors := by
  constructor <;> exact ⟨by decide +kernel, by decide +kernel⟩

/-- No field of the frame has an escape character. -/
structure StackFrame.Plain (f : StackFrame) : Prop where
  address : ∀ text ∈ f.address, escape ∉ text
  method : ∀ text ∈ f.method, escape ∉ text
  params : ∀ text ∈ f.params, escape ∉ text
  file : ∀ text ∈ f.file, escape ∉ text

/-- Nor has the name of the thread. -/
structure ThreadInfo.Plain (thread : ThreadInfo) : Prop where
  name : escape ∉ thread.name
  frames : ∀ f ∈ thread.frames, f.Plain

theorem escape_notMem_decimal (n : ℤ) : escape ∉ decimal n := by
  have hdigits (m : ℕ) : escape ∉ decimalNat m := fun hmem =>
    absurd (isdigit_of_mem_decimalNat hmem) (by decide)
  rw [decimal]
  split_ifs
  · rw [List.mem_cons, not_or]
    exact ⟨by decide, hdigits _⟩
  · exact hdigits _

section Schema

variable {schema : StackdumpColorSchema} (hschema : schema.IsColors)

theorem shownAs_fieldText {field : Option CString} {colored plain : CString → CString}
    (hfield : ∀ text ∈ field, ShownAs (colored text) (plain text)) :
    ShownAs (fieldText field colored) (fieldText field plain) := by
  cases field with
  | none => exact ⟨rfl, rfl⟩
  | some text =>
      rw [fieldText, fieldText]
      split_ifs
      · exact ⟨rfl, rfl⟩
      · exact hfield text rfl

include hschema

theorem shownAs_threadInfoFormat {thread : ThreadInfo} (hthread : thread.Plain) :
    ShownAs (threadInfoFormat schema thread) (threadInfoFormat emptySchema thread) := by
  have hwords : escape ∉ cstr "Thread " ∧ escape ∉ cstr " (LWP " ∧ escape ∉ cstr ") \"" ∧
      escape ∉ cstr " \"" ∧ escape ∉ cstr "\"" ∧ escape ≠ newline := by decide
  have hdecimal := escape_notMem_decimal
  have hheader : escape ∉ threadHeader thread := by
    rw [threadHeader]
    split_ifs <;> simp [hwords, hdecimal, hthread.name]
  have hcut : ShownAs ((threadHeader thread).take 255) ((threadHeader thread).take 255) :=
    shownAs_self fun hmem => hheader (List.mem_of_mem_take hmem)
  have hplain : threadInfoFormat emptySchema thread = (threadHeader thread).take 255 :=
    List.append_nil _
  rw [hplain]
  exact hcut.colored hschema.header hschema.reset

theorem shownAs_stackFrameFormat {f : StackFrame} (hf : f.Plain) :
    ShownAs (stackFrameFormat schema f) (stackFrameFormat emptySchema f) := by
  have hwords : escape ∉ cstr "#" ∧ escape ∉ cstr " " ∧ escape ∉ cstr " in " ∧
      escape ∉ cstr " at " ∧ escape ∉ cstr ":" := by decide
  have hdecimal := escape_notMem_decimal
  have hnumber : ShownAs (schema.frameIndex ++ cstr "#" ++ decimal f.frameNumber ++ schema.reset)
      (cstr "#" ++ decimal f.frameNumber) := by
    have hself : ShownAs (cstr "#" ++ decimal f.frameNumber) (cstr "#" ++ decimal f.frameNumber) :=
      shownAs_self (by simp [hwords, hdecimal])
    have hcolored := hself.colored hschema.frameIndex hschema.reset
    rwa [← List.append_assoc] at hcolored
  have haddress : ShownAs (fieldText f.address fun text => cstr " " ++ text ++ cstr " in ")
      (fieldText f.address fun text => cstr " " ++ text ++ cstr " in ") :=
    shownAs_fieldText fun text htext => shownAs_self (by simp [hwords, hf.address text htext])
  have hmethod : ShownAs (fieldText f.method fun text => schema.symbol ++ text ++ schema.reset)
      (fieldText f.method fun text => text) :=
    shownAs_fieldText fun text htext =>
      (shownAs_self (hf.method text htext)).colored hschema.symbol hschema.reset
  have hparams : ShownAs
      (fieldText f.params fun text => cstr " " ++ schema.params ++ text ++ schema.reset)
      (fieldText f.params fun text => cstr " " ++ text) :=
    shownAs_fieldText fun text htext => by
      have hblank : ShownAs (cstr " ") (cstr " ") := shownAs_self hwords.2.1
      have hcolored := (shownAs_self (hf.params text htext)).colored hschema.params hschema.reset
      have hboth := hblank.append hcolored
      rwa [← List.append_assoc, ← List.append_assoc] at hboth
  have hfile : ShownAs
      (fieldText f.file fun text => cstr " at " ++ schema.location ++
        (if 0 < f.line then text ++ cstr ":" ++ decimal f.line else text) ++ schema.reset)
      (fieldText f.file fun text => cstr " at " ++
        (if 0 < f.line then text ++ cstr ":" ++ decimal f.line else text)) :=
    shownAs_fieldText fun text htext => by
      have hat : ShownAs (cstr " at ") (cstr " at ") := shownAs_self hwords.2.2.2.1
      have hplace : escape ∉ (if 0 < f.line then text ++ cstr ":" ++ decimal f.line else text) := by
        split_ifs <;> simp [hwords, hdecimal, hf.file text htext]
      have hcolored := (shownAs_self hplace).colored hschema.location hschema.reset
      have hboth := hat.append hcolored
      rwa [← List.append_assoc, ← List.append_assoc] at hboth
  have hnewline : ShownAs [newline] [newline] := shownAs_self (by decide)
  have hall := ((((hnumber.append haddress).append hmethod).append hparams).append hfile).append
    hnewline
  have hplain : stackFrameFormat emptySchema f = cstr "#" ++ decimal f.frameNumber ++
      fieldText f.address (fun text => cstr " " ++ text ++ cstr " in ") ++
      fieldText f.method (fun text => text) ++
      fieldText f.params (fun text => cstr " " ++ text) ++
      fieldText f.file (fun text => cstr " at " ++
        (if 0 < f.line then text ++ cstr ":" ++ decimal f.line else text)) ++ [newline] := by
    simp only [stackFrameFormat, stackFrameText, emptySchema, List.nil_append, List.append_nil]
  rw [hplain]
  exact hall

theorem shownAs_frames {frames : List StackFrame} (hframes : ∀ f ∈ frames, f.Plain) :
    ShownAs (frames.flatMap fun f => cstr "    " ++ stackFrameFormat schema f)
      (frames.flatMap fun f => cstr "    " ++ stackFrameFormat emptySchema f) := by
  induction frames with
  | nil => exact ⟨rfl, rfl⟩
  | cons f frames ih =>
      obtain ⟨hf, hrest⟩ := List.forall_mem_cons.mp hframes
      have hindent : ShownAs (cstr "    ") (cstr "    ") := shownAs_self (by decide)
      rw [List.flatMap_cons, List.flatMap_cons]
      exact (hindent.append (shownAs_stackFrameFormat hschema hf)).append (ih hrest)

/-- **The threads are shown alike with every schema.** -/
theorem shownAs_formatThreads {threads : List ThreadInfo}
    (hthreads : ∀ thread ∈ threads, thread.Plain) (threadIndex : ℕ) :
    ShownAs (formatThreads schema threadIndex threads)
      (formatThreads emptySchema threadIndex threads) := by
  induction threads generalizing threadIndex with
  | nil => exact ⟨rfl, rfl⟩
  | cons thread threads ih =>
      obtain ⟨hthread, hrest⟩ := List.forall_mem_cons.mp hthreads
      rw [formatThreads, formatThreads]
      split_ifs with hincluded hindex
      · refine ShownAs.append (ShownAs.append ?_ ?_) (ih hrest _)
        · exact (shownAs_self (by decide)).append (shownAs_threadInfoFormat hschema hthread)
        · exact shownAs_frames hschema hthread.frames
      · refine ShownAs.append (ShownAs.append ?_ ?_) (ih hrest _)
        · exact shownAs_threadInfoFormat hschema hthread
        · exact shownAs_frames hschema hthread.frames
      · exact ih hrest _

end Schema

/-! ## What is parsed -/

/-- Nothing but characters of the text. -/
def Within (text line : CString) : Prop := ∀ c ∈ text, c ∈ line

theorem within_address {p address : CString} (haddress : (parseAddress p).1 = some address) :
    Within address p := by
  rw [parseAddress] at haddress
  split_ifs at haddress
  obtain rfl := Option.some.inj haddress
  have hskip := skipBlanks_suffix p
  intro c hc
  refine hskip.subset ?_
  rcases List.mem_append.mp hc with hc | hc
  · exact List.mem_of_mem_take hc
  · exact List.mem_of_mem_drop ((List.takeWhile_prefix _).subset hc)

theorem within_params {p params : CString} (hparams : (parseParams p).1 = some params) :
    Within params p := by
  obtain ⟨-, blanks, rest, -, rfl⟩ := closesLast_of_parseParams hparams
  exact fun c hc => List.mem_append_right _ (List.mem_append_left _ hc)

theorem splitParams_suffix (depth : ℕ) (p : CString) : (splitParams depth p).2 <:+ p := by
  induction p generalizing depth with
  | nil => cases depth <;> exact List.suffix_refl _
  | cons c rest ih =>
      cases depth with
      | zero => exact List.suffix_refl _
      | succ depth =>
          rw [splitParams]
          split_ifs
          · exact (ih (depth + 2)).trans (List.suffix_cons _ _)
          · exact (ih depth).trans (List.suffix_cons _ _)
          · exact (ih (depth + 1)).trans (List.suffix_cons _ _)

theorem parseParams_suffix (p : CString) : (parseParams p).2 <:+ p := by
  have hskip := skipBlanks_suffix p
  rw [parseParams]
  cases htext : skipBlanks p with
  | nil => exact List.nil_suffix
  | cons c rest =>
      rw [htext] at hskip
      dsimp only
      split_ifs
      · exact ((splitParams_suffix 1 rest).trans (List.suffix_cons _ _)).trans hskip
      · exact hskip

theorem within_splitColon {p file rest : CString} (hsplit : splitColon p = some (file, rest)) :
    Within file p := by
  induction p generalizing file with
  | nil => cases hsplit
  | cons c p ih =>
      rw [splitColon] at hsplit
      split_ifs at hsplit
      · obtain rfl := (Prod.mk.inj (Option.some.inj hsplit)).1
        exact List.forall_mem_nil _
      · obtain ⟨⟨inner, behind⟩, hinner, heq⟩ := Option.map_eq_some_iff.mp hsplit
        obtain ⟨rfl, rfl⟩ := Prod.mk.inj heq
        intro d hd
        rcases List.mem_cons.mp hd with rfl | hd
        · exact List.mem_cons_self
        · exact List.mem_cons_of_mem _ (ih hinner d hd)

theorem within_file {p file : CString} (hfile : (parseFile p).1 = some file) : Within file p := by
  unfold parseFile at hfile
  split at hfile
  · cases hfile
  · rename_i behind hat
    split at hfile
    · cases hfile
    · rename_i found rest hsplit
      split_ifs at hfile
      obtain rfl := Option.some.inj hfile
      have hbehind := (dropWord_suffix hat).trans (skipBlanks_suffix p)
      exact fun c hc => hbehind.subset (within_splitColon hsplit c hc)

/-- A frame of a line without escape characters has none. -/
theorem plain_of_parse {line : CString} (hline : escape ∉ line) {f : StackFrame}
    (hparse : gdbOutputStackFrameParse line = .frame f) : f.Plain := by
  cases htext : frameText line with
  | none =>
      rw [gdbOutputStackFrameParse_of_none htext] at hparse
      cases hparse
  | some p =>
      have hp := frameText_suffix htext
      rcases gdbOutputStackFrameParse_of_some htext with ⟨hfits, -⟩ | ⟨-, hoverflow⟩
      · rw [gdbOutputStackFrameParse_of htext hfits rfl rfl, FrameParse.frame.injEq] at hparse
        subst hparse
        have hnumber := (parseFrameNumber_suffix p).trans hp
        have hsymbol := (symbolFrom_suffix _).trans ((parseAddress_suffix _).trans hnumber)
        have hmethod :
            (splitMethod (symbolFrom (parseAddress (parseFrameNumber p).2).2)).2 <:+ line :=
          List.IsSuffix.trans ⟨_, splitMethod_append _⟩ hsymbol
        have hparams := (parseParams_suffix _).trans hmethod
        constructor
        · intro text hfield hmem
          exact hline (hnumber.subset (within_address hfield _ hmem))
        · intro text hfield hmem
          simp only [frameFrom] at hfield
          split_ifs at hfield
          · cases hfield
          · obtain rfl := Option.some.inj hfield
            have hfront : (splitMethod (symbolFrom (parseAddress (parseFrameNumber p).2).2)).1 <+:
                symbolFrom (parseAddress (parseFrameNumber p).2).2 := ⟨_, splitMethod_append _⟩
            exact hline (hsymbol.subset (hfront.subset hmem))
        · intro text hfield hmem
          exact hline (hmethod.subset (within_params hfield _ hmem))
        · intro text hfield hmem
          exact hline (hparams.subset (within_file hfield _ hmem))
      · rw [hoverflow] at hparse
        cases hparse

theorem within_threadName (line : CString) : Within (threadName line) line := by
  unfold threadName
  split
  · exact List.forall_mem_nil _
  · rename_i before q hopen
    split
    · exact List.forall_mem_nil _
    · rename_i name rest hclose
      obtain ⟨hsplit, -, after, rfl⟩ := strchr_eq_some hopen
      obtain ⟨hname, -, -⟩ := strchr_eq_some hclose
      intro c hc
      rw [hsplit]
      refine List.mem_append_right _ (List.mem_cons_of_mem _ ?_)
      rw [List.tail_cons] at hname
      rw [hname]
      exact List.mem_append_left _ hc

theorem escape_notMem_backtraceName {line : CString} (hline : escape ∉ line) :
    escape ∉ backtraceThreadNameFromLine line := by
  have hcurrent : escape ∉ cstr "current" := by decide
  unfold backtraceThreadNameFromLine
  split
  · exact hcurrent
  · rename_i before p hopen
    split
    · exact hcurrent
    · rename_i name rest hclose
      split_ifs
      · exact hcurrent
      · obtain ⟨hsplit, -, after, rfl⟩ := strchr_eq_some hopen
        obtain ⟨hname, -, -⟩ := strchr_eq_some hclose
        rw [List.tail_cons] at hname
        intro hmem
        refine hline (hsplit ▸ List.mem_append_right _ (List.mem_cons_of_mem _ ?_))
        exact hname ▸ List.mem_append_left _ hmem

/-- No thread that has been found has an escape character. -/
def BacktraceState.Plain (s : BacktraceState) : Prop := ∀ thread ∈ s.result, thread.Plain

/-- A frame for the current thread. -/
theorem BacktraceState.Plain.addFrame {s : BacktraceState} (hs : s.Plain) {thread : ThreadInfo}
    (hcurrent : s.current = some thread) {f : StackFrame} (hf : f.Plain) :
    BacktraceState.Plain
      { s with current := some { thread with frames := thread.frames ++ [f] } } := by
  intro other hother
  rcases List.mem_append.mp hother with hmem | hmem
  · exact hs other (List.mem_append_left _ hmem)
  · obtain rfl := List.mem_singleton.mp hmem
    have hthread : thread.Plain := hs thread (List.mem_append_right _ (by simp [hcurrent]))
    exact ⟨hthread.name, List.forall_mem_append.mpr
      ⟨hthread.frames, List.forall_mem_singleton.mpr hf⟩⟩

/-- The next thread. -/
theorem BacktraceState.Plain.next {s : BacktraceState} (hs : s.Plain) {current : Option ThreadInfo}
    (hcurrent : ∀ thread ∈ current, thread.Plain) : BacktraceState.Plain ⟨s.result, current⟩ := by
  intro thread hthread
  rcases List.mem_append.mp hthread with hmem | hmem
  · exact hs thread hmem
  · exact hcurrent thread (Option.mem_toList.mp hmem)

/-- What the lines that begin with `#` add to the current thread. -/
theorem plain_frameStep {line : CString} (hline : escape ∉ line) {s t : BacktraceState}
    {thread : ThreadInfo} (hs : s.Plain) (hcurrent : s.current = some thread)
    (hstep : (if line.head? = some hash then
        match gdbOutputStackFrameParse line with
        | .noFrame => some s
        | .overflow => none
        | .frame f => some { s with current := some { thread with frames := thread.frames ++ [f] } }
      else some s) = some t) : t.Plain := by
  split_ifs at hstep
  · cases hparse : gdbOutputStackFrameParse line with
    | noFrame =>
        rw [hparse] at hstep
        exact Option.some.inj hstep ▸ hs
    | overflow =>
        rw [hparse] at hstep
        cases hstep
    | frame f =>
        rw [hparse] at hstep
        exact Option.some.inj hstep ▸ hs.addFrame hcurrent (plain_of_parse hline hparse)
  · exact Option.some.inj hstep ▸ hs

theorem plain_gdbOutputLine {line : CString} (hline : escape ∉ line) {s t : BacktraceState}
    (hs : s.Plain) (hstep : gdbOutputLine s line = some t) : t.Plain := by
  rw [gdbOutputLine] at hstep
  by_cases hnoise : isGdbNoiseLine line
  · rw [if_pos hnoise] at hstep
    exact Option.some.inj hstep ▸ hs
  rw [if_neg hnoise] at hstep
  by_cases hheader : isThreadHeader line
  · rw [if_pos hheader] at hstep
    obtain rfl := Option.some.inj hstep
    refine hs.next fun thread hthread => ⟨?_, ?_⟩
    · rw [name_of_gdbOutputThreadInfoParse hthread]
      exact fun hmem => hline (within_threadName line _ hmem)
    · rw [frames_of_gdbOutputThreadInfoParse hthread]
      exact List.forall_mem_nil _
  · rw [if_neg hheader] at hstep
    cases hcurrent : s.current with
    | none =>
        rw [hcurrent] at hstep
        exact Option.some.inj hstep ▸ hs
    | some thread =>
        rw [hcurrent] at hstep
        exact plain_frameStep hline hs hcurrent hstep

theorem plain_backtraceLine {line : CString} (hline : escape ∉ line) {s t : BacktraceState}
    (hs : s.Plain) (hstep : backtraceLine s line = some t) : t.Plain := by
  rw [backtraceLine] at hstep
  by_cases hheader : isBacktraceThreadHeader line
  · rw [if_pos hheader] at hstep
    obtain rfl := Option.some.inj hstep
    refine hs.next fun thread hthread => ?_
    obtain rfl := Option.some.inj hthread
    exact ⟨escape_notMem_backtraceName hline, List.forall_mem_nil _⟩
  · rw [if_neg hheader] at hstep
    cases hcurrent : s.current with
    | none =>
        rw [hcurrent] at hstep
        exact Option.some.inj hstep ▸ hs
    | some thread =>
        rw [hcurrent] at hstep
        exact plain_frameStep hline hs hcurrent hstep

/-- The lines of an input without escape characters have none. -/
theorem escape_notMem_readLines {bytes : List UInt8} (hbytes : 27 ∉ bytes) :
    ∀ line ∈ readLines bytes, escape ∉ line := by
  intro line hline hmem
  obtain ⟨read, hread, rfl⟩ := List.mem_map.mp hline
  have hbyte : (27 : UInt8) ∈ bytesOf (textOf read) := List.mem_map_of_mem (f := fun c => c.1) hmem
  have hread' := (bytesOf_textOf read).subset hbyte
  have hflatten := (linesOf_byteLines bytes).flatten
  exact hbytes (hflatten ▸ List.mem_flatten.mpr ⟨read, hread, hread'⟩)

/-- **Colors do not change what is shown.** Where gdb's output has no escape characters, or the
dump that is highlighted, each schema of colors shows the text that is printed without colors. -/
theorem shown_highlight {input : List UInt8} (hinput : 27 ∉ input)
    {schema : Option StackdumpColorSchema}
    (hschema : (schema.getD stackdumpColorSchemaDefault).IsColors) :
    (gdbOutputHighlightFd input schema).map shown = gdbOutputHighlightFd input (some emptySchema) ∧
      (backtraceHighlightFd input schema).map shown =
        backtraceHighlightFd input (some emptySchema) := by
  have hlines := escape_notMem_readLines hinput
  have hnone : BacktraceState.Plain ⟨[], none⟩ := List.forall_mem_nil _
  constructor
  · rw [gdbOutputHighlightFd, gdbOutputHighlightFd, Option.map_map]
    cases hparse : gdbOutputParse input with
    | none => rfl
    | some threads =>
        obtain ⟨s, hs, rfl⟩ := Option.map_eq_some_iff.mp hparse
        have hplain := Lib.foldlM_invariant
          (fun line hline s t hs hstep => plain_gdbOutputLine (hlines line hline) hs hstep) hnone hs
        exact congrArg some (shownAs_formatThreads hschema hplain 0).1
  · rw [backtraceHighlightFd, backtraceHighlightFd, Option.map_map]
    cases hparse : backtraceParseBytes input with
    | none => rfl
    | some threads =>
        obtain ⟨s, hs, rfl⟩ := Option.map_eq_some_iff.mp hparse
        have hplain := Lib.foldlM_invariant
          (fun line hline s t hs hstep => plain_backtraceLine (hlines line hline) hs hstep) hnone hs
        exact congrArg some (shownAs_formatThreads hschema hplain 0).1

/-- A thread with a frame, in the default colors. -/
theorem shown_highlight_default :
    (gdbOutputHighlightFd (bytesOf (cstr "Thread 1 (LWP 7)\n#0  0x1 in f () at a.c:3\n")) none).map
        shown =
      gdbOutputHighlightFd (bytesOf (cstr "Thread 1 (LWP 7)\n#0  0x1 in f () at a.c:3\n"))
        (some emptySchema) ∧
    (backtraceHighlightFd (bytesOf (cstr "Thread 1 (LWP 7)\n#0  0x1 in f () at a.c:3\n")) none).map
        shown =
      backtraceHighlightFd (bytesOf (cstr "Thread 1 (LWP 7)\n#0  0x1 in f () at a.c:3\n"))
        (some emptySchema) :=
  shown_highlight (by decide +kernel) isColors_default

end BasC
