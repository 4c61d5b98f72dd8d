/-
# The debug console

The keyboard thread reads lines and runs them as commands: `bt` dumps the stacks, `timer` controls
the timer, `status` shows its settings. The timer triggers between the commands.

What the console does to the files is known from the commands: a dump goes to the files of the
base name that an `-f` gives, and the files of a dump without a name are removed again.
-/

import BasC.Cli.Parser
import BasC.Proc.Stackdump
import BasC.Proc.Timer

namespace BasC

open CChar

/-- `tolower`. -/
def CChar.toLower (c : CChar) : CChar :=
  if h : 65 ≤ c.toNat ∧ c.toNat ≤ 90 then
    ⟨c.1 + 32, by
      intro hzero
      have hnat := congrArg UInt8.toNat hzero
      rw [UInt8.toNat_add] at hnat
      have hc : c.1.toNat = c.toNat := rfl
      rw [hc] at hnat
      have hvalue : (32 : UInt8).toNat = 32 := rfl
      have hnone : (0 : UInt8).toNat = 0 := rfl
      omega⟩
  else c

/-- `strcasecmp(a, b) == 0`. -/
def strcaseeq (a b : CString) : Bool := a.map CChar.toLower = b.map CChar.toLower

/-- `arg_is`. -/
def argIs (arg cmd : CString) : Bool := strcaseeq arg cmd

/-- `trim_line`. Tabs are kept at the end. -/
def trimLine (line : CString) : CString :=
  skipBlanks (line.rdropWhile fun c => c = newline || c = carriageReturn || c = blank)

/-- What `mkstemp` puts in the place of `XXXXXX`. -/
def TempName : Type := { name : CString // name.length = 6 }

/-- The path that `mkstemp` makes of `/tmp/stackdump.XXXXXX`. -/
def TempName.path (temp : TempName) : CString := cstr "/tmp/stackdump." ++ temp.1

/-- What the keyboard thread works with, and the timer. -/
structure Console where
  world : FileWorld
  timer : Option TimerContext
  /-- `s_interactive`. -/
  interactive : Bool
  /-- An exit callback is set. -/
  exitCallback : Bool
  /-- How often it has been called. -/
  exitCalls : ℕ
  /-- `exit(0)` has been called. -/
  exited : Bool

/-- What the calls of one command give. -/
structure CommandOutcomes where
  access : Access
  dump : DumpOutcomes
  mkstemp : Option TempName
  start : StartOutcomes
  /-- What `top_threads` and `dump_fd` find in `/proc`. -/
  threads : CString
  descriptors : CString

namespace Console

/-- `fprintf(stderr, …)`. -/
def message (console : Console) (text : CString) : Console :=
  { console with world := console.world.message text }

/-- `OUT_HDR`. -/
def outHdr (console : Console) (text : CString) : CString :=
  if console.interactive then cstr "\x1b[1m" ++ cstr "\x1b[36m" ++ text ++ cstr "\x1b[0m" else text

/-- `OUT_HDR2`. -/
def outHdr2 (console : Console) (text : CString) : CString :=
  if console.interactive then cstr "\x1b[32m" ++ text ++ cstr "\x1b[0m" else text

end Console

/-- `out_file`: what follows the first `-f` that has something behind it. -/
def outFile : List CString → Option CString
  | arg :: value :: rest => if arg = cstr "-f" then some value else outFile (value :: rest)
  | _ => none

/-- `base_path` of a dump that is given a name. -/
def basePath (file : CString) : CString := bounded stackdumpFileMax file

/-- A path made from `base_path`, in an array of `STACKDUMP_FILE_MAX + 16` bytes. -/
def derivedPath (base extension : CString) : CString :=
  bounded (stackdumpFileMax + 16) (base ++ extension)

/-- What `bt` prints of the dump: the output of gdb if it can be opened, or else the dump of the
current thread. -/
def shownDump (access : Access) (base : CString) (w : FileWorld) : Option FileWorld :=
  match w.read access (derivedPath base (cstr ".gdb")) with
  | some input => (gdbOutputHighlightFd input none).map fun text => w.print text
  | none =>
      match w.read access (derivedPath base (cstr ".bt")) with
      | some input => (backtraceHighlightFd input none).map fun text => w.print text
      | none => some w

/-- The files of a dump without a name are removed. -/
def removeDump (access : Access) (base : CString) (w : FileWorld) : FileWorld :=
  ((w.unlink access base).unlink access (derivedPath base (cstr ".gdb"))).unlink access
    (derivedPath base (cstr ".bt"))

/-- `run_bt_backtrace_stackdump`, with the arguments behind its name. -/
def runBtBacktraceStackdump (outcomes : CommandOutcomes) (args : List CString) (w : FileWorld) :
    Option FileWorld :=
  match (outFile args).getD [] with
  | c :: file =>
      let base := basePath (c :: file)
      (stackdump outcomes.access outcomes.dump base none w).bind (shownDump outcomes.access base)
  | [] =>
      match outcomes.mkstemp with
      | none => some (w.message (cstr "bt: mkstemp failed\n"))
      | some temp =>
          let base := temp.path
          let w := { w with files := Function.update w.files base (some []) }
          ((stackdump outcomes.access outcomes.dump base none w).bind
            (shownDump outcomes.access base)).map (removeDump outcomes.access base)

/-- `%d` of a flag. -/
def flagText (flag : Bool) : CString := decimal (if flag then 1 else 0)

/-- `print_timer_status`. -/
def timerStatus : Option TimerContext → CString
  | some context =>
      cstr "timer: running\n" ++
        cstr "  interval_ms   " ++ decimal context.opts.intervalMs ++ [newline] ++
        cstr "  stackdump     " ++ flagText context.opts.doStackdump ++ [newline] ++
        (if context.opts.stackdumpFile.isEmpty then []
          else cstr "  stackdump_file " ++ context.opts.stackdumpFile.1 ++ [newline]) ++
        cstr "  health        " ++ flagText context.opts.doHealth ++ [newline] ++
        cstr "  dump_fd       " ++ flagText context.opts.doDumpFd ++ [newline] ++
        cstr "  counter       " ++ decimal context.counter ++ [newline]
  | none => cstr "timer: stopped\n"

/-- What `run_timer_cmd` shows of the options that it has started the timer with. -/
def timerOptionsText (opts : TimerOptions) : CString :=
  cstr "timer: interval=" ++ decimal opts.intervalMs ++ cstr " ms stackdump=" ++
    flagText opts.doStackdump ++ cstr " health=" ++ flagText opts.doHealth ++
    cstr " dump_fd=" ++ flagText opts.doDumpFd ++ [newline]

/-- The call that `run_timer_cmd` makes, and its message. -/
def timerCommand (outcomes : CommandOutcomes) (argv : List CString) (console : Console) :
    Console :=
  match runTimerCmd argv with
  | .stop =>
      { console with timer := stopTimerThread console.timer }.message
        (console.outHdr2 (cstr "timer stopped\n"))
  | .start none => console.message (cstr "timer start failed\n")
  | .start (some opts) =>
      let out := startTimerThread console.timer (some opts) outcomes.start
      { console with timer := out.1 }.message
        (if out.2 then console.outHdr2 (timerOptionsText opts) else cstr "timer start failed\n")

/-- The text of `help`. -/
def helpText : CString :=
  cstr "  bt, backtrace, stackdump [-f FILE]  dump backtrace (-f FILE else stdout)\n" ++
    cstr "  t, threads      list threads (tid, comm, utime, stime)\n" ++
    cstr "  f, list-fd      list open fds with path and pos\n" ++
    cstr "  w, timer [opts] timer: -s -h -d -f FILE -w <ms> -q (-f = stackdump file)\n" ++
    cstr "  \\s, status      print status (timer settings etc.)\n" ++
    cstr "  do [action]     run UI action; no arg = list actions\n" ++
    cstr "  h, help         this help\n" ++
    cstr "  exit            exit the app\n" ++
    cstr "  Ctrl-D (EOF)    stop kbd thread\n"

/-- `status`. -/
def showStatus (console : Console) : Console :=
  ((console.message (console.outHdr (cstr "=== status ===\n"))).message
    (timerStatus console.timer)).message (console.outHdr (cstr "=== end status ===\n"))

/-- `do`. There are no actions: `dbgaction_list` prints none and `dbgaction_do` finds none. -/
def runAction (args : List CString) (console : Console) : Console :=
  match args with
  | [] =>
      (console.message (console.outHdr (cstr "=== actions (top overrides below) ===\n"))).message
        (console.outHdr (cstr "=== end actions ===\n"))
  | name :: _ => console.message (cstr "? action not found: " ++ name ++ [newline])

/-- `exit`. -/
def runExit (console : Console) : Console :=
  if console.exitCallback then { console with exitCalls := console.exitCalls + 1 }
  else { console with exited := true }

/-- What `run_command` does with a command line: its name `argv[0]`, and all of `argv`. -/
def runArgv (outcomes : CommandOutcomes) (name : CString) (argv : List CString)
    (console : Console) : Option Console :=
  if argIs name (cstr "bt") || argIs name (cstr "backtrace") || argIs name (cstr "stackdump") then
    (runBtBacktraceStackdump outcomes argv.tail console.world).map fun world =>
      { console with world := world }
  else if argIs name (cstr "t") || argIs name (cstr "threads") then
    some (console.message outcomes.threads)
  else if argIs name (cstr "f") || argIs name (cstr "list-fd") then
    some (console.message outcomes.descriptors)
  else if argIs name (cstr "w") || argIs name (cstr "timer") then
    some (timerCommand outcomes argv console)
  else if argIs name (cstr "h") || argIs name (cstr "help") then some (console.message helpText)
  else if name = cstr "\\s" || argIs name (cstr "status") then some (showStatus console)
  else if argIs name (cstr "do") then some (runAction argv.tail console)
  else if argIs name (cstr "exit") then some (runExit console)
  else some (console.message (cstr "? unknown command (h/help for help)\n"))

/-- `run_command`; `none` when a frame number of a dump overflows. -/
def runCommand (outcomes : CommandOutcomes) (line : CString) (console : Console) :
    Option Console :=
  match trimLine line with
  | [] => some console
  | c :: text =>
      let out := argsParse bareEnv (c :: text)
      if out.ret ≠ 0 then
        some (console.message (cstr "? parse error (unmatched quotes?)\n"))
      else if out.argc = 0 then some console
      else
        match (out.argv.getD []).head? with
        | some (some name) => runArgv outcomes name out.strings console
        | _ => some console

/-- One action of a trigger. -/
def runTimerAction (access : Access) (dump : DumpOutcomes) (descriptors : CString)
    (console : Console) : TimerAction → Option Console
  | .health counter =>
      some (console.message
        (console.outHdr2 (cstr "timer triggered " ++ decimal counter ++ [newline])))
  | .stackdump file =>
      (stackdump access dump file (some stackdumpColorSchemaDefault) console.world).map
        fun world => { console with world := world }
  | .dumpFd => some (console.message descriptors)

/-- `timer_thread`, when the interval is over. -/
def runTrigger (access : Access) (dump : DumpOutcomes) (descriptors : CString)
    (console : Console) : Option Console :=
  match console.timer with
  | none => some console
  | some context =>
      let out := timerTrigger context
      out.1.foldlM (runTimerAction access dump descriptors) { console with timer := some out.2 }

/-- What happens at the console. -/
inductive ConsoleEvent
  /-- The keyboard thread reads a line. -/
  | line (bytes : List UInt8) (outcomes : CommandOutcomes)
  /-- The timer triggers, if it runs. -/
  | trigger (access : Access) (dump : DumpOutcomes) (descriptors : CString)

/-- One round of `kbd_monitor_thread`, or one trigger. -/
def consoleStep (console : Console) : ConsoleEvent → Option Console
  | .line bytes outcomes =>
      runCommand outcomes (textOf bytes) (console.message (cstr "Dbg> "))
  | .trigger access dump descriptors => runTrigger access dump descriptors console

/-- A run up to its end, or up to `exit(0)`. -/
def consoleRun (console : Console) (events : List ConsoleEvent) : Option Console :=
  events.foldlM (fun console event =>
    if console.exited then some console else consoleStep console event) console

end BasC
