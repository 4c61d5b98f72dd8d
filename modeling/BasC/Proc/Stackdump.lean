/-
# Dumping the stacks

`stackdump_gdb_pid` lets gdb write the stacks of a process into a file, and writes those of the
current thread into another when gdb fails. With a color schema it writes a colored copy as well.
The names of the files are made from one base name.

The process that runs gdb is known by what it writes and how it ends.
-/

import BasC.Cli.Args
import BasC.Proc.GdbFormat
import BasC.Proc.Pid
import Mathlib.Data.Set.Function

namespace BasC

open CChar

/-- What each path holds; `none` where there is no file. -/
abbrev Files : Type := CString → Option (List UInt8)

/-- What the process may do with a path. -/
structure Access where
  mayRead : CString → Bool
  mayWrite : CString → Bool
  mayUnlink : CString → Bool

/-- What a dump works on: the files, and the two output streams of the program. -/
structure FileWorld where
  files : Files
  stdout : List UInt8
  stderr : CString

namespace FileWorld

variable (access : Access) (path : CString) (w : FileWorld)

/-- `fopen(path, "r")`, and all that is read from it. -/
def read : Option (List UInt8) := if access.mayRead path then w.files path else none

/-- `fopen(path, "w")`, and what is written to it up to `fclose`. -/
def write (bytes : List UInt8) : FileWorld :=
  if access.mayWrite path then { w with files := Function.update w.files path (some bytes) }
  else w

/-- `unlink(path)`. -/
def unlink : FileWorld :=
  if access.mayUnlink path then { w with files := Function.update w.files path none } else w

/-- `fprintf(stderr, …)`. -/
def message (text : CString) : FileWorld := { w with stderr := w.stderr ++ text }

/-- `fputs(text, stdout)`. -/
def print (text : CString) : FileWorld := { w with stdout := w.stdout ++ bytesOf text }

end FileWorld

/-- `ANSI_RESET` and the other sequences of the default schema. -/
def stackdumpColorSchemaDefault : StackdumpColorSchema where
  reset := cstr "\x1b[0m"
  header := cstr "\x1b[1m" ++ cstr "\x1b[36m"
  frameIndex := cstr "\x1b[36m"
  symbol := cstr "\x1b[32m"
  params := cstr "\x1b[90m"
  location := cstr "\x1b[33m"

/-- `gdb_output_highlight_fd`: what it prints, or nothing when a frame number overflows. -/
def gdbOutputHighlightFd (input : List UInt8) (schema : Option StackdumpColorSchema) :
    Option CString :=
  (gdbOutputParse input).map (threadInfoListFormat (schema.getD stackdumpColorSchemaDefault))

/-- `backtrace_parse`, of a file that may hold any bytes. -/
def backtraceParseBytes (bytes : List UInt8) : Option (List ThreadInfo) :=
  ((readLines bytes).foldlM backtraceLine ⟨[], none⟩).map BacktraceState.result

/-- `backtrace_highlight_fd`. -/
def backtraceHighlightFd (input : List UInt8) (schema : Option StackdumpColorSchema) :
    Option CString :=
  (backtraceParseBytes input).map (threadInfoListFormat (schema.getD stackdumpColorSchemaDefault))

/-- `gdb_output_highlight_file` and `backtrace_highlight_file`. The output file is made before
the input is read. -/
def highlightFile (highlight : List UInt8 → Option CString) (unread unwritten : CString)
    (access : Access) (inputFile outputFile : CString) (w : FileWorld) : Option FileWorld :=
  match w.read access inputFile with
  | none => some (w.message unread)
  | some _ =>
      if access.mayWrite outputFile then
        let w := w.write access outputFile []
        (highlight ((w.files inputFile).getD [])).map fun text =>
          w.write access outputFile (bytesOf text)
      else some (w.message unwritten)

/-- `gdb_output_highlight_file`. -/
def gdbOutputHighlightFile (access : Access) (inputFile outputFile : CString)
    (schema : Option StackdumpColorSchema) (w : FileWorld) : Option FileWorld :=
  highlightFile (gdbOutputHighlightFd · schema)
    (cstr "stackdump: failed to open file: " ++ inputFile ++ [newline])
    (cstr "stackdump: failed to write to file: " ++ outputFile ++ [newline])
    access inputFile outputFile w

/-- `backtrace_highlight_file`, which fails without a message. -/
def backtraceHighlightFile (access : Access) (inputFile outputFile : CString)
    (schema : Option StackdumpColorSchema) (w : FileWorld) : Option FileWorld :=
  highlightFile (backtraceHighlightFd · schema) [] [] access inputFile outputFile w

/-- How a process ends. -/
inductive WaitStatus
  | exited (code : ℕ)
  | signaled (signal : ℕ)
  deriving DecidableEq

/-- `WIFEXITED(status) && WEXITSTATUS(status) != 0`. -/
def WaitStatus.failed : WaitStatus → Bool
  | .exited code => code ≠ 0
  | .signaled _ => false

/-- What the calls of one dump give. -/
structure DumpOutcomes where
  /-- The text of the error when `fork` fails. -/
  forkError : Option CString
  /-- What gdb writes to its output file. -/
  gdbOutput : List UInt8
  status : WaitStatus
  /-- What `backtrace_symbols` gives. -/
  symbols : List CString

/-- The name of an output file, in an array of `PATH_MAX` bytes. -/
def outputPath (file extension : CString) : CString := bounded pathMax (file ++ extension)

/-- `WEXITSTATUS(status)`. -/
def WaitStatus.code : WaitStatus → ℕ
  | .exited code => code
  | .signaled _ => 0

/-- The message about the file of a dump. -/
def outputMessage (start : String) (schema : Option StackdumpColorSchema)
    (plain highlighted : CString) : CString :=
  cstr start ++
    (if schema.isSome then cstr "highlighted output: " ++ highlighted
      else cstr "plain output: " ++ plain) ++ [newline]

/-- `stackdump_gdb_pid`, when gdb fails. -/
def fallbackDump (access : Access) (outcomes : DumpOutcomes) (file : CString)
    (schema : Option StackdumpColorSchema) (w : FileWorld) : Option FileWorld :=
  let backtraceOutputFile := outputPath file (cstr ".bt")
  let backtraceOutputFileHighlighted := outputPath file (cstr ".bt.colored")
  let w := w.message (cstr "stackdump: gdb failed: " ++ decimal outcomes.status.code ++ [newline])
  let w := w.write access backtraceOutputFile (bytesOf (stackdumpCurrentThread outcomes.symbols))
  (if schema.isSome then
    backtraceHighlightFile access backtraceOutputFile backtraceOutputFileHighlighted none w
  else some w).map fun w =>
    w.message (outputMessage "stackdump_current_thread: " schema backtraceOutputFile
      backtraceOutputFileHighlighted)

/-- `stackdump_gdb_pid`, when it does not. -/
def finishedDump (access : Access) (file : CString) (schema : Option StackdumpColorSchema)
    (w : FileWorld) : Option FileWorld :=
  let gdbOutputFile := outputPath file (cstr ".gdb")
  let gdbOutputFileHighlighted := outputPath file (cstr ".gdb.colored")
  (if schema.isSome then
    gdbOutputHighlightFile access gdbOutputFile gdbOutputFileHighlighted none w
  else some w).map fun w =>
    w.message (outputMessage "stackdump: gdb " schema gdbOutputFile gdbOutputFileHighlighted)

/-- `stackdump_gdb_pid`, up to its return value. -/
def stackdumpGdbPid (access : Access) (outcomes : DumpOutcomes) (file : CString)
    (schema : Option StackdumpColorSchema) (w : FileWorld) : Option FileWorld :=
  let gdbOutputFile := outputPath file (cstr ".gdb")
  match outcomes.forkError with
  | some error => some (w.message (cstr "stackdump: failed to fork: " ++ error ++ [newline]))
  | none =>
      let w := w.message (cstr "stackdump: create gdb output file: " ++ gdbOutputFile ++ [newline])
      let w := w.write access gdbOutputFile outcomes.gdbOutput
      if outcomes.status.failed then fallbackDump access outcomes file schema w
      else finishedDump access file schema w

/-- `stackdump`. -/
def stackdump (access : Access) (outcomes : DumpOutcomes) (file : CString)
    (schema : Option StackdumpColorSchema) (w : FileWorld) : Option FileWorld :=
  stackdumpGdbPid access outcomes file schema w

/-- The files at all other paths stay as they are. -/
def FileWorld.ChangesOnly (paths : Set CString) (w w' : FileWorld) : Prop :=
  Set.EqOn w'.files w.files pathsᶜ

namespace FileWorld

variable {paths more : Set CString} {w w' w'' : FileWorld}

theorem ChangesOnly.refl (paths : Set CString) (w : FileWorld) : ChangesOnly paths w w :=
  Set.eqOn_refl _ _

theorem ChangesOnly.trans (hfirst : ChangesOnly paths w w') (hsecond : ChangesOnly paths w' w'') :
    ChangesOnly paths w w'' :=
  Set.EqOn.trans hsecond hfirst

theorem ChangesOnly.mono (hchanges : ChangesOnly paths w w') (hpaths : paths ⊆ more) :
    ChangesOnly more w w' :=
  Set.EqOn.mono (Set.compl_subset_compl.mpr hpaths) hchanges

theorem changesOnly_update {path : CString} (hpath : path ∈ paths) (content : Option (List UInt8)) :
    ChangesOnly paths w { w with files := Function.update w.files path content } := by
  intro other hother
  refine Function.update_of_ne ?_ _ _
  rintro rfl
  exact hother hpath

theorem changesOnly_write (access : Access) {path : CString} (hpath : path ∈ paths)
    (bytes : List UInt8) : ChangesOnly paths w (w.write access path bytes) := by
  rw [write]
  split_ifs
  · exact changesOnly_update hpath _
  · exact ChangesOnly.refl _ _

theorem changesOnly_message (text : CString) : ChangesOnly paths w (w.message text) :=
  ChangesOnly.refl _ _

end FileWorld

open FileWorld

section Dump

variable {access : Access} {outcomes : DumpOutcomes} {file : CString}
  {schema : Option StackdumpColorSchema} {w w' : FileWorld}

theorem changesOnly_highlightFile {highlight : List UInt8 → Option CString}
    {unread unwritten inputFile outputFile : CString} {paths : Set CString}
    (hpath : outputFile ∈ paths)
    (hrun : highlightFile highlight unread unwritten access inputFile outputFile w = some w') :
    ChangesOnly paths w w' := by
  unfold highlightFile at hrun
  split at hrun
  · exact Option.some.inj hrun ▸ changesOnly_message unread
  · split_ifs at hrun
    · obtain ⟨text, -, rfl⟩ := Option.map_eq_some_iff.mp hrun
      exact (changesOnly_write access hpath []).trans (changesOnly_write access hpath _)
    · exact Option.some.inj hrun ▸ changesOnly_message unwritten

/-- The files that a dump may write. -/
def dumpPaths (file : CString) (colored : Bool) : Set CString :=
  {outputPath file (cstr ".gdb"), outputPath file (cstr ".bt")} ∪
    {path | colored = true ∧ (path = outputPath file (cstr ".gdb.colored") ∨
      path = outputPath file (cstr ".bt.colored"))}

theorem gdb_mem_dumpPaths (file : CString) (colored : Bool) :
    outputPath file (cstr ".gdb") ∈ dumpPaths file colored :=
  .inl (.inl rfl)

theorem bt_mem_dumpPaths (file : CString) (colored : Bool) :
    outputPath file (cstr ".bt") ∈ dumpPaths file colored :=
  .inl (.inr rfl)

theorem gdbColored_mem_dumpPaths (file : CString) :
    outputPath file (cstr ".gdb.colored") ∈ dumpPaths file true :=
  .inr ⟨rfl, .inl rfl⟩

theorem btColored_mem_dumpPaths (file : CString) :
    outputPath file (cstr ".bt.colored") ∈ dumpPaths file true :=
  .inr ⟨rfl, .inr rfl⟩

theorem changesOnly_fallbackDump (hrun : fallbackDump access outcomes file schema w = some w') :
    ChangesOnly (dumpPaths file schema.isSome) w w' := by
  obtain ⟨v, hhighlight, rfl⟩ := Option.map_eq_some_iff.mp hrun
  generalize hmessage : w.message _ = u at hhighlight
  have hstart : ChangesOnly (dumpPaths file schema.isSome) w u :=
    hmessage ▸ changesOnly_message _
  have hdump := hstart.trans (changesOnly_write access (bt_mem_dumpPaths file schema.isSome)
    (bytesOf (stackdumpCurrentThread outcomes.symbols)))
  split_ifs at hhighlight with hschema
  · rw [hschema] at hdump ⊢
    have hcolored := changesOnly_highlightFile (btColored_mem_dumpPaths file) hhighlight
    exact (hdump.trans hcolored).trans (changesOnly_message _)
  · exact Option.some.inj hhighlight ▸ hdump

theorem changesOnly_finishedDump (hrun : finishedDump access file schema w = some w') :
    ChangesOnly (dumpPaths file schema.isSome) w w' := by
  obtain ⟨v, hhighlight, rfl⟩ := Option.map_eq_some_iff.mp hrun
  split_ifs at hhighlight with hschema
  · rw [hschema]
    have hcolored := changesOnly_highlightFile (gdbColored_mem_dumpPaths file) hhighlight
    exact hcolored.trans (changesOnly_message _)
  · exact Option.some.inj hhighlight ▸ ChangesOnly.refl _ _

/-- A dump writes no other files, whatever becomes of gdb. -/
theorem changesOnly_stackdump (hrun : stackdump access outcomes file schema w = some w') :
    ChangesOnly (dumpPaths file schema.isSome) w w' := by
  rw [stackdump, stackdumpGdbPid] at hrun
  cases hfork : outcomes.forkError with
  | some error =>
      rw [hfork] at hrun
      exact Option.some.inj hrun ▸ changesOnly_message _
  | none =>
      rw [hfork] at hrun
      simp only at hrun
      generalize hmessage : w.message _ = u at hrun
      have hstart : ChangesOnly (dumpPaths file schema.isSome) w u :=
        hmessage ▸ changesOnly_message _
      have houtput := hstart.trans
        (changesOnly_write access (gdb_mem_dumpPaths file schema.isSome) outcomes.gdbOutput)
      split_ifs at hrun
      · exact houtput.trans (changesOnly_fallbackDump hrun)
      · exact houtput.trans (changesOnly_finishedDump hrun)

end Dump

end BasC
