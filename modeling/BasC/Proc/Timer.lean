/-
# The debug timer

`start_timer_thread` starts the timer or, when one is running, updates its options;
`stop_timer_thread` ends it. Both are called by the keyboard command `timer`. The timer
dumps the stacks only if it has a file for them, which is chosen when it is started.
-/

import BasC.Base.Numerals
import BasC.Base.Str
import BasC.Lib.Transition

namespace BasC

open CChar Lib

/-- `TIMER_DEFAULT_INTERVAL_MS`. -/
def timerDefaultIntervalMs : ℤ := 2000

/-- The size of `stackdump_file`. -/
def stackdumpFileMax : ℕ := 260

/-- What the array `stackdump_file` holds. -/
def StackdumpFile : Type := { file : CString // file.length < stackdumpFileMax }

/-- `snprintf(stackdump_file, sizeof(stackdump_file), "%s", path)`. -/
def StackdumpFile.print (path : CString) : StackdumpFile :=
  ⟨path.take (stackdumpFileMax - 1), by
    rw [List.length_take]
    exact Nat.lt_of_le_of_lt (Nat.min_le_left _ _) (by decide)⟩

/-- `stackdump_file[0] == '\0'`. -/
def StackdumpFile.isEmpty (file : StackdumpFile) : Bool := file.1.isEmpty

/-- `struct timer_options`. -/
structure TimerOptions where
  intervalMs : ℤ
  doStackdump : Bool
  doHealth : Bool
  doDumpFd : Bool
  stackdumpFile : StackdumpFile

/-- `struct timer_context`, without the handle of its thread. -/
structure TimerContext where
  quit : Bool
  opts : TimerOptions
  counter : ℕ

/-- `mkstemp` makes a file from a template, whose last six characters have to be `XXXXXX`. -/
structure TempFiles where
  mkstemp : CString → Option CString
  mkstemp_isSome : ∀ template, (mkstemp template).isSome = true ↔
    template.drop (template.length - 6) = cstr "XXXXXX"

/-- How the library calls of a start come out. -/
structure StartOutcomes where
  calloc : Bool
  pthreadCreate : Bool
  files : TempFiles

/-- `interval_ms > 0 ? interval_ms : TIMER_DEFAULT_INTERVAL_MS`. -/
def effectiveInterval (intervalMs : ℤ) : ℤ :=
  if 0 < intervalMs then intervalMs else timerDefaultIntervalMs

/-- A running timer gets new options, and keeps its file unless it is given another. -/
def updateContext (context : TimerContext) (opts : TimerOptions) : TimerContext :=
  { context with
    opts :=
      { intervalMs := effectiveInterval opts.intervalMs
        doStackdump := opts.doStackdump
        doHealth := opts.doHealth
        doDumpFd := opts.doDumpFd
        stackdumpFile :=
          if opts.stackdumpFile.isEmpty then context.opts.stackdumpFile
          else .print opts.stackdumpFile.1 } }

/-- The template of the file of a timer that is given none. -/
def stackTemplate : CString := cstr "/tmp/stack.XXXXXX.dump"

/-- The file of a new timer. -/
def chooseFile (files : TempFiles) (opts : TimerOptions) : StackdumpFile :=
  if opts.stackdumpFile.isEmpty then
    if opts.doStackdump then
      match files.mkstemp stackTemplate with
      | some path => .print (path ++ cstr ".dump")
      | none => .print []
    else .print []
  else .print opts.stackdumpFile.1

/-- The context of a new timer. -/
def newContext (files : TempFiles) (opts : TimerOptions) : TimerContext :=
  { quit := false
    counter := 0
    opts :=
      { intervalMs := effectiveInterval opts.intervalMs
        doStackdump := opts.doStackdump
        doHealth := opts.doHealth
        doDumpFd := opts.doDumpFd
        stackdumpFile := chooseFile files opts } }

/-- `start_timer_thread`: the context `s_timer_ctx` that it leaves, and whether it returns
one. -/
def startTimerThread (current : Option TimerContext) (opts : Option TimerOptions)
    (outcomes : StartOutcomes) : Option TimerContext × Bool :=
  match opts with
  | none => (current, false)
  | some opts =>
      match current with
      | some context => (some (updateContext context opts), true)
      | none =>
          if !outcomes.calloc then (none, false)
          else if !outcomes.pthreadCreate then (none, false)
          else (some (newContext outcomes.files opts), true)

/-- `stop_timer_thread`, when no other call comes in between. -/
def stopTimerThread : Option TimerContext → Option TimerContext
  | some _ => none
  | none => none

inductive TimerAction
  | health (counter : ℕ)
  | stackdump (file : CString)
  | dumpFd
  deriving DecidableEq

/-- `timer_thread`, when the interval is over. -/
def timerTrigger (context : TimerContext) : List TimerAction × TimerContext :=
  let context := { context with counter := (context.counter + 1) % 2 ^ 64 }
  let opts := context.opts
  ((if opts.doHealth then [.health context.counter] else []) ++
    (if opts.doStackdump && !opts.stackdumpFile.isEmpty then [.stackdump opts.stackdumpFile.1]
      else []) ++
    (if opts.doDumpFd then [.dumpFd] else []), context)

/-- `strtoul(s, &end, 10)`: the value and `end`, or nothing when `end` is `s`. -/
def strtoul (s : CString) : Option (ℕ × CString) :=
  (scanInt s).map fun out =>
    (if 2 ^ 64 ≤ out.1.natAbs then 2 ^ 64 - 1 else (out.1 % 2 ^ 64).toNat, out.2)

/-- `parse_interval_ms`. Whatever follows the number but an `s` is taken for milliseconds. -/
def parseIntervalMs (s : CString) : ℤ :=
  match strtoul s with
  | none => -1
  | some (val, rest) =>
      if intMax < val then -1
      else
        match (skipBlanks rest).head? with
        | none => val
        | some c =>
            if [c] = cstr "s" ∨ [c] = cstr "S" then
              if intMax / 1000 < val then -1 else val * 1000
            else val

/-- The variables of `run_timer_cmd`. -/
structure TimerArgs where
  opts : TimerOptions
  quit : Bool

/-- `ms > 0` sets the interval. -/
def TimerArgs.interval (args : TimerArgs) (s : CString) : TimerArgs :=
  if 0 < parseIntervalMs s then
    { args with opts := { args.opts with intervalMs := parseIntervalMs s } }
  else args

/-- An argument without a value. -/
def TimerArgs.flag (args : TimerArgs) (arg : CString) : TimerArgs :=
  if arg = cstr "-s" ∨ arg = cstr "--stackdump" then
    { args with opts := { args.opts with doStackdump := true } }
  else if arg = cstr "-h" ∨ arg = cstr "--health" then
    { args with opts := { args.opts with doHealth := true } }
  else if arg = cstr "-d" ∨ arg = cstr "--dump-fd" then
    { args with opts := { args.opts with doDumpFd := true } }
  else if arg = cstr "-q" ∨ arg = cstr "--quit" then { args with quit := true }
  else
    match arg.head? with
    | none => args
    | some c => if isdigit c then args.interval arg else args

/-- The loop over the arguments. An `-f` or `-w` at the end of them is passed over. -/
def parseTimerArgs : List CString → TimerArgs → TimerArgs
  | [], args => args
  | [arg], args => args.flag arg
  | arg :: value :: rest, args =>
      if arg = cstr "-f" then
        parseTimerArgs rest
          { args with opts := { args.opts with stackdumpFile := .print value } }
      else if arg = cstr "-w" ∨ arg = cstr "--interval" then
        parseTimerArgs rest (args.interval value)
      else parseTimerArgs (value :: rest) (args.flag arg)

/-- The calls that control the timer. -/
inductive TimerRequest
  | start (opts : Option TimerOptions)
  | stop

/-- `run_timer_cmd`, up to the call that it makes. -/
def runTimerCmd (argv : List CString) : TimerRequest :=
  let args := parseTimerArgs argv.tail
    ⟨⟨timerDefaultIntervalMs, false, false, false, .print []⟩, false⟩
  if args.quit then .stop
  else if !args.opts.doStackdump && !args.opts.doHealth && !args.opts.doDumpFd then
    .start (some { args.opts with doHealth := true })
  else .start (some args.opts)

/-- A command to the timer: a call, or a line at the keyboard. -/
inductive TimerCommand
  | call (request : TimerRequest)
  | line (argv : List CString)

def TimerCommand.request : TimerCommand → TimerRequest
  | .call request => request
  | .line argv => runTimerCmd argv

/-- What happens to the timer. -/
inductive TimerEvent
  | command (command : TimerCommand) (outcomes : StartOutcomes)
  | trigger

/-- The context behind an event. -/
def timerStep (current : Option TimerContext) : TimerEvent → Option TimerContext
  | .command command outcomes =>
      match command.request with
      | .start opts => (startTimerThread current opts outcomes).1
      | .stop => stopTimerThread current
  | .trigger => current.map fun context => (timerTrigger context).2

/-- A timer that runs and is to dump the stacks has a file for them, and its trigger dumps
them there. -/
def DumpsHaveFile (current : Option TimerContext) : Prop :=
  ∀ context, current = some context → context.opts.doStackdump = true →
    context.opts.stackdumpFile.isEmpty = false ∧
      .stackdump context.opts.stackdumpFile.1 ∈ (timerTrigger context).1

/-- A start that asks for stack dumps names a file, or the timer that it updates has one; or
no timer is started. -/
def GivesFile (current : Option TimerContext) : TimerEvent → Prop
  | .command command outcomes =>
      ∀ opts, command.request = .start (some opts) → opts.doStackdump = true →
        opts.stackdumpFile.isEmpty = false ∨
          (∃ context, current = some context ∧ context.opts.stackdumpFile.isEmpty = false) ∨
          (current = none ∧ (outcomes.calloc = false ∨ outcomes.pthreadCreate = false))
  | .trigger => True

/-- `mkstemp` refuses the template of a new timer. -/
theorem mkstemp_stackTemplate (files : TempFiles) : files.mkstemp stackTemplate = none := by
  have hsuffix : ¬ stackTemplate.drop (stackTemplate.length - 6) = cstr "XXXXXX" := by
    decide +kernel
  rw [← files.mkstemp_isSome, Option.not_isSome_iff_eq_none] at hsuffix
  exact hsuffix

theorem StackdumpFile.isEmpty_print (file : StackdumpFile) :
    (StackdumpFile.print file.1).isEmpty = file.isEmpty := by
  have hfits : file.1.length ≤ stackdumpFileMax - 1 := Nat.le_sub_one_of_lt file.2
  simp only [isEmpty, print, List.take_of_length_le hfits]

/-- So a new timer has the file that it is given, or none. -/
theorem chooseFile_isEmpty (files : TempFiles) (opts : TimerOptions) :
    (chooseFile files opts).isEmpty = opts.stackdumpFile.isEmpty := by
  rw [chooseFile, mkstemp_stackTemplate]
  cases hfile : opts.stackdumpFile.isEmpty with
  | true =>
      rw [if_pos rfl]
      split_ifs <;> rfl
  | false =>
      rw [if_neg Bool.false_ne_true, StackdumpFile.isEmpty_print, hfile]

/-- An update leaves the timer without a file if it had none and is given none. -/
theorem updateContext_isEmpty (context : TimerContext) (opts : TimerOptions) :
    (updateContext context opts).opts.stackdumpFile.isEmpty =
      (opts.stackdumpFile.isEmpty && context.opts.stackdumpFile.isEmpty) := by
  simp only [updateContext]
  cases hfile : opts.stackdumpFile.isEmpty with
  | true => rw [if_pos rfl, Bool.true_and]
  | false => rw [if_neg Bool.false_ne_true, StackdumpFile.isEmpty_print, hfile, Bool.false_and]

theorem dumpsHaveFile_none : DumpsHaveFile none := fun _ hcontext => nomatch hcontext

/-- A trigger dumps the stacks whenever there is a file. -/
theorem dumpsHaveFile_some (context : TimerContext) :
    DumpsHaveFile (some context) ↔
      (context.opts.doStackdump = true → context.opts.stackdumpFile.isEmpty = false) := by
  constructor
  · exact fun hdumps hstackdump => (hdumps context rfl hstackdump).1
  · intro hfile _ hsome hstackdump
    obtain rfl := Option.some.inj hsome
    refine ⟨hfile hstackdump, ?_⟩
    simp [timerTrigger, hstackdump, hfile hstackdump]

/-- A start of a timer, or an update of the one that runs. -/
theorem dumpsHaveFile_startTimerThread {current : Option TimerContext}
    (hcurrent : DumpsHaveFile current) (opts : Option TimerOptions) (outcomes : StartOutcomes) :
    DumpsHaveFile (startTimerThread current opts outcomes).1 ↔
      ∀ given, opts = some given → given.doStackdump = true →
        given.stackdumpFile.isEmpty = false ∨
          (∃ context, current = some context ∧ context.opts.stackdumpFile.isEmpty = false) ∨
          (current = none ∧ (outcomes.calloc = false ∨ outcomes.pthreadCreate = false)) := by
  cases opts with
  | none => exact iff_of_true hcurrent (fun _ hgiven => nomatch hgiven)
  | some given =>
      simp only [Option.some.injEq, forall_eq']
      cases current with
      | some context =>
          simp only [startTimerThread, dumpsHaveFile_some, updateContext_isEmpty,
            Bool.and_eq_false_iff, Option.some.injEq, exists_eq_left', reduceCtorEq, false_and,
            or_false]
          rfl
      | none =>
          simp only [startTimerThread, reduceCtorEq, false_and, exists_false, true_and, false_or]
          cases hcalloc : outcomes.calloc with
          | false => exact iff_of_true dumpsHaveFile_none fun _ => .inr (.inl rfl)
          | true =>
              cases hcreate : outcomes.pthreadCreate with
              | false => exact iff_of_true dumpsHaveFile_none fun _ => .inr (.inr rfl)
              | true =>
                  simp only [Bool.not_true, Bool.false_eq_true, if_false, dumpsHaveFile_some,
                    newContext, chooseFile_isEmpty, Bool.true_eq_false, or_false]

/-- An event keeps a file for every dump exactly when it gives one where it asks for dumps. -/
theorem dumpsHaveFile_timerStep {current : Option TimerContext}
    (hcurrent : DumpsHaveFile current) (event : TimerEvent) :
    DumpsHaveFile (timerStep current event) ↔ GivesFile current event := by
  cases event with
  | command command outcomes =>
      simp only [timerStep, GivesFile]
      cases hrequest : command.request with
      | start opts =>
          simp only [TimerRequest.start.injEq]
          exact dumpsHaveFile_startTimerThread hcurrent opts outcomes
      | stop =>
          have hstopped : stopTimerThread current = none := by cases current <;> rfl
          rw [hstopped]
          exact iff_of_true dumpsHaveFile_none (fun _ hstart => nomatch hstart)
  | trigger =>
      cases current with
      | none => exact iff_of_true dumpsHaveFile_none trivial
      | some context =>
          refine iff_of_true ?_ trivial
          exact (dumpsHaveFile_some _).mpr ((dumpsHaveFile_some context).mp hcurrent)

/-- **Every trigger has a file for its dump**, in every state of a run, if and only if every
command that asks for dumps gives one or finds one. -/
theorem dumpsHaveFile_iff (events : List TimerEvent) :
    (∀ before, before <+: events → DumpsHaveFile (before.foldl timerStep none)) ↔
      ∀ before event, before ++ [event] <+: events →
        GivesFile (before.foldl timerStep none) event :=
  @forall_foldl_iff _ _ timerStep DumpsHaveFile GivesFile
    (fun _ event hcurrent => dumpsHaveFile_timerStep hcurrent event) _ dumpsHaveFile_none events

/-- Files named by their template. -/
def namedFiles : TempFiles where
  mkstemp template :=
    if template.drop (template.length - 6) = cstr "XXXXXX" then some template else none
  mkstemp_isSome template := by
    split_ifs with hsuffix
    · exact iff_of_true rfl hsuffix
    · exact iff_of_false Bool.false_ne_true hsuffix

/-- `timer -s` starts a timer that never dumps. -/
theorem not_dumpsHaveFile_s :
    ¬ ∀ before, before <+: [TimerEvent.command (.line [cstr "timer", cstr "-s"])
        ⟨true, true, namedFiles⟩] →
      DumpsHaveFile (before.foldl timerStep none) := by
  intro hdumps
  have hrequest : runTimerCmd [cstr "timer", cstr "-s"] =
      .start (some ⟨timerDefaultIntervalMs, true, false, false, .print []⟩) := by
    rfl
  have hstate := hdumps _ (List.prefix_refl _)
  simp only [List.foldl_cons, List.foldl_nil, timerStep, TimerCommand.request, hrequest] at hstate
  rcases (dumpsHaveFile_startTimerThread dumpsHaveFile_none _ _).mp hstate _ rfl rfl with
    hfile | ⟨_, hrunning, -⟩ | ⟨-, hfails | hfails⟩
  · cases hfile
  · cases hrunning
  · cases hfails
  · cases hfails

end BasC
