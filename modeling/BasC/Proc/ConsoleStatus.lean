/-
# What `status` shows

The timer behind a run of the console is the one that its `timer` commands and its triggers lead
to; nothing else that is typed changes it. While it is not stopped it counts its triggers, has the
options of the last command, and keeps its file until it is given another.
-/

import BasC.Proc.ConsoleRuns

namespace BasC

open CChar

/-- `argv[0]`, of a line that is run as a command. -/
def lineName (bytes : List UInt8) : Option CString :=
  match trimLine (textOf bytes) with
  | [] => none
  | c :: text =>
      if (argsParse bareEnv (c :: text)).ret ≠ 0 ∨ (argsParse bareEnv (c :: text)).argc = 0 then
        none
      else (((argsParse bareEnv (c :: text)).argv.getD []).head?).join

/-- The name is `w` or `timer`. -/
def isTimerName (name : CString) : Bool := argIs name (cstr "w") || argIs name (cstr "timer")

/-- The call of a line that controls the timer. -/
def lineRequest (bytes : List UInt8) : Option TimerRequest :=
  match lineName bytes with
  | none => none
  | some name => if isTimerName name then some (runTimerCmd (lineArgv bytes)) else none

/-- What an event is to the timer. -/
def ConsoleEvent.timerEvent : ConsoleEvent → Option TimerEvent
  | .line bytes outcomes =>
      (lineRequest bytes).map fun request => .command (.call request) outcomes.start
  | .trigger _ _ _ => some .trigger

/-- A line with a name is run as that command. -/
theorem runCommand_of_name {bytes : List UInt8} {name : CString}
    (hname : lineName bytes = some name) (outcomes : CommandOutcomes) (console : Console) :
    runCommand outcomes (textOf bytes) console =
      runArgv outcomes name (lineArgv bytes) console := by
  unfold lineName at hname
  unfold runCommand lineArgv
  split at hname
  · cases hname
  · rename_i c text hline
    simp only [hline]
    split_ifs at hname with hnone
    rw [not_or] at hnone
    rw [if_neg hnone.1, if_neg hnone.2]
    rw [Option.join_eq_some_iff] at hname
    rw [hname]

/-- A line without a name is answered by a message, or not at all. -/
theorem runCommand_of_none {bytes : List UInt8} (hname : lineName bytes = none)
    (outcomes : CommandOutcomes) (console : Console) :
    ∃ text, runCommand outcomes (textOf bytes) console = some (console.message text) := by
  have hsame : console.message [] = console := by simp [Console.message, FileWorld.message]
  unfold lineName at hname
  unfold runCommand
  cases hline : trimLine (textOf bytes) with
  | nil => exact ⟨[], congrArg some hsame.symm⟩
  | cons c text =>
      rw [hline] at hname
      dsimp only at hname ⊢
      split_ifs with hret hargc
      · exact ⟨_, rfl⟩
      · exact ⟨[], by rw [hsame]⟩
      · refine ⟨[], ?_⟩
        rw [if_neg (not_or.mpr ⟨hret, hargc⟩)] at hname
        split
        · rename_i name hhead
          rw [hhead] at hname
          cases hname
        · rw [hsame]

/-- A word has one spelling in lower case. -/
theorem argIs_unique {name first second : CString} (hfirst : argIs name first = true)
    (hsecond : argIs name second = true) :
    first.map CChar.toLower = second.map CChar.toLower := by
  rw [argIs, strcaseeq, decide_eq_true_iff] at hfirst hsecond
  exact hfirst.symm.trans hsecond

/-- A word with one of two spellings is no other word. -/
theorem not_argIs_of_argIs {name first second word : CString}
    (hname : argIs name first = true ∨ argIs name second = true)
    (hfirst : first.map CChar.toLower ≠ word.map CChar.toLower)
    (hsecond : second.map CChar.toLower ≠ word.map CChar.toLower) :
    argIs name word = false := by
  rw [← Bool.not_eq_true]
  intro hword
  rcases hname with hname | hname
  · exact hfirst (argIs_unique hname hword)
  · exact hsecond (argIs_unique hname hword)

theorem not_argIs_of_isTimerName {name word : CString} (hname : isTimerName name = true)
    (hw : (cstr "w").map CChar.toLower ≠ word.map CChar.toLower)
    (htimer : (cstr "timer").map CChar.toLower ≠ word.map CChar.toLower) :
    argIs name word = false := by
  rw [isTimerName, Bool.or_eq_true] at hname
  exact not_argIs_of_argIs hname hw htimer

theorem runArgv_of_timer {name : CString} (hname : isTimerName name = true)
    (outcomes : CommandOutcomes) (argv : List CString) (console : Console) :
    runArgv outcomes name argv console = some (timerCommand outcomes argv console) := by
  have hother {word : CString} := @not_argIs_of_isTimerName name word hname
  rw [runArgv, hother (by decide) (by decide), hother (by decide) (by decide),
    hother (by decide) (by decide), hother (by decide) (by decide), hother (by decide) (by decide),
    hother (by decide) (by decide), hother (by decide) (by decide)]
  rw [isTimerName] at hname
  simp [hname]

/-- The other commands leave the timer alone. -/
theorem timer_runArgv {name : CString} (hname : isTimerName name = false)
    {outcomes : CommandOutcomes} {argv : List CString} {console console' : Console}
    (hrun : runArgv outcomes name argv console = some console') :
    console'.timer = console.timer := by
  rw [isTimerName] at hname
  unfold runArgv at hrun
  split_ifs at hrun with _ _ _ htimer
  · obtain ⟨world, -, rfl⟩ := Option.map_eq_some_iff.mp hrun
    rfl
  · exact Option.some.inj hrun ▸ rfl
  · exact Option.some.inj hrun ▸ rfl
  · rw [hname] at htimer
    cases htimer
  · exact Option.some.inj hrun ▸ rfl
  · exact Option.some.inj hrun ▸ rfl
  · obtain rfl := Option.some.inj hrun
    unfold runAction
    split <;> rfl
  · obtain rfl := Option.some.inj hrun
    unfold runExit
    split_ifs <;> rfl
  · exact Option.some.inj hrun ▸ rfl

theorem timer_timerCommand (outcomes : CommandOutcomes) (argv : List CString)
    (console : Console) :
    (timerCommand outcomes argv console).timer =
      timerStep console.timer (.command (.call (runTimerCmd argv)) outcomes.start) := by
  cases hrequest : runTimerCmd argv with
  | stop => simp only [timerCommand, hrequest, timerStep, TimerCommand.request, Console.message]
  | start opts =>
      cases opts <;>
        simp only [timerCommand, hrequest, timerStep, TimerCommand.request, Console.message,
          startTimerThread]

theorem timer_runTrigger {access : Access} {dump : DumpOutcomes} {descriptors : CString}
    {console console' : Console}
    (hrun : runTrigger access dump descriptors console = some console') :
    console'.timer = timerStep console.timer .trigger := by
  unfold runTrigger at hrun
  cases hcontext : console.timer with
  | none =>
      rw [hcontext] at hrun
      obtain rfl := Option.some.inj hrun
      exact hcontext
  | some context =>
      rw [hcontext] at hrun
      refine @Lib.foldlM_invariant _ _ _ (fun s => s.timer = some (timerTrigger context).2) _
        (fun action _ s t hs hstep => ?_) _ _ rfl hrun
      cases action with
      | health counter => exact Option.some.inj hstep ▸ hs
      | dumpFd => exact Option.some.inj hstep ▸ hs
      | stackdump file =>
          obtain ⟨world, -, rfl⟩ := Option.map_eq_some_iff.mp hstep
          exact hs

/-- The timer behind a step. -/
theorem timer_consoleStep {console console' : Console} {event : ConsoleEvent}
    (hstep : consoleStep console event = some console') :
    console'.timer = event.timerEvent.toList.foldl timerStep console.timer := by
  cases event with
  | trigger access dump descriptors => exact timer_runTrigger hstep
  | line bytes outcomes =>
      rw [consoleStep] at hstep
      rw [ConsoleEvent.timerEvent, lineRequest]
      cases hname : lineName bytes with
      | none =>
          obtain ⟨text, hrun⟩ := runCommand_of_none hname outcomes (console.message (cstr "Dbg> "))
          rw [hrun] at hstep
          exact Option.some.inj hstep ▸ rfl
      | some name =>
          rw [runCommand_of_name hname] at hstep
          cases htimer : isTimerName name with
          | false =>
              have hkept := timer_runArgv htimer hstep
              simpa [htimer, Console.message] using hkept
          | true =>
              rw [runArgv_of_timer htimer] at hstep
              obtain rfl := Option.some.inj hstep
              rw [timer_timerCommand]
              simp [htimer, Console.message]

/-- A console on which `exit(0)` has been called does nothing more. -/
theorem consoleRun_of_exited {console : Console} (hexited : console.exited = true)
    (events : List ConsoleEvent) : consoleRun console events = some console := by
  induction events with
  | nil => rfl
  | cons event events ih =>
      rw [consoleRun, List.foldlM_cons, if_pos hexited]
      exact ih

theorem consoleRun_cons {console console' : Console} {event : ConsoleEvent}
    {events : List ConsoleEvent} (hrun : consoleRun console (event :: events) = some console')
    (hexited : console'.exited = false) :
    ∃ next, consoleStep console event = some next ∧ consoleRun next events = some console' := by
  cases hfirst : console.exited with
  | true =>
      rw [consoleRun_of_exited hfirst] at hrun
      rw [← Option.some.inj hrun, hfirst] at hexited
      cases hexited
  | false =>
      rw [consoleRun, List.foldlM_cons, hfirst] at hrun
      exact Option.bind_eq_some_iff.mp hrun

/-- The timer behind a run: a run of the console is one of the timer. -/
theorem timer_consoleRun {console console' : Console} {events : List ConsoleEvent}
    (hrun : consoleRun console events = some console') (hexited : console'.exited = false) :
    console'.timer = (events.filterMap ConsoleEvent.timerEvent).foldl timerStep console.timer := by
  induction events generalizing console with
  | nil => exact Option.some.inj hrun ▸ rfl
  | cons event events ih =>
      obtain ⟨next, hstep, hrest⟩ := consoleRun_cons hrun hexited
      rw [ih hrest, timer_consoleStep hstep]
      cases hevent : event.timerEvent <;> simp [hevent]

/-! ## The options of the commands -/

theorem interval_pos_interval {args : TimerArgs} (hargs : 0 < args.opts.intervalMs) (s : CString) :
    0 < (args.interval s).opts.intervalMs := by
  rw [TimerArgs.interval]
  split_ifs with hpos
  · exact hpos
  · exact hargs

theorem interval_pos_flag {args : TimerArgs} (hargs : 0 < args.opts.intervalMs) (arg : CString) :
    0 < (args.flag arg).opts.intervalMs := by
  unfold TimerArgs.flag
  split_ifs
  · exact hargs
  · exact hargs
  · exact hargs
  · exact hargs
  · split
    · exact hargs
    · split_ifs
      · exact interval_pos_interval hargs arg
      · exact hargs

theorem interval_pos_parseTimerArgs (argv : List CString) (args : TimerArgs)
    (hargs : 0 < args.opts.intervalMs) : 0 < (parseTimerArgs argv args).opts.intervalMs := by
  fun_induction parseTimerArgs argv args with
  | case1 args => exact hargs
  | case2 arg args => exact interval_pos_flag hargs arg
  | case3 value rest args ih => exact ih hargs
  | case4 arg value rest args hfile hinterval ih => exact ih (interval_pos_interval hargs value)
  | case5 arg value rest args hfile hinterval ih => exact ih (interval_pos_flag hargs arg)

/-- A line always gives the timer an interval. -/
theorem interval_pos_runTimerCmd {argv : List CString} {opts : TimerOptions}
    (hrequest : runTimerCmd argv = .start (some opts)) : 0 < opts.intervalMs := by
  have hargs := interval_pos_parseTimerArgs argv.tail
    ⟨⟨timerDefaultIntervalMs, false, false, false, .print []⟩, false⟩ (by decide)
  rw [runTimerCmd] at hrequest
  generalize parseTimerArgs argv.tail _ = args at hargs hrequest
  simp only at hrequest
  split_ifs at hrequest
  · exact Option.some.inj (TimerRequest.start.inj hrequest) ▸ hargs
  · exact Option.some.inj (TimerRequest.start.inj hrequest) ▸ hargs

/-- The options that an event gives to the timer. -/
def ConsoleEvent.options : ConsoleEvent → Option TimerOptions
  | .line bytes _ =>
      match lineRequest bytes with
      | some (.start opts) => opts
      | _ => none
  | .trigger _ _ _ => none

/-- `timer -q`. -/
def ConsoleEvent.stops : ConsoleEvent → Prop
  | .line bytes _ => lineRequest bytes = some .stop
  | .trigger _ _ _ => False

def ConsoleEvent.isTrigger : ConsoleEvent → Bool
  | .line _ _ => false
  | .trigger _ _ _ => true

/-- The last file that is given, if any is. -/
def lastFile (given : List TimerOptions) : StackdumpFile :=
  ((given.map TimerOptions.stackdumpFile).filter fun file => !file.isEmpty).getLastD (.print [])

/-- The timer that was started with `opts` and has been given `later` since, after this many
triggers. -/
def runningTimer (opts : TimerOptions) (later : List TimerOptions) (triggers : ℕ) :
    TimerContext where
  quit := false
  opts := { later.getLastD opts with stackdumpFile := lastFile (opts :: later) }
  counter := triggers % 2 ^ 64

theorem StackdumpFile.eq_print_nil {file : StackdumpFile} (hempty : file.isEmpty = true) :
    file = .print [] :=
  Subtype.ext (List.isEmpty_iff.mp hempty)

theorem lastFile_concat (given : List TimerOptions) (opts : TimerOptions) :
    lastFile (given ++ [opts]) =
      if opts.stackdumpFile.isEmpty then lastFile given else opts.stackdumpFile := by
  rw [lastFile, List.map_append, List.filter_append]
  cases hempty : opts.stackdumpFile.isEmpty with
  | true => simp [hempty, lastFile]
  | false => simp [hempty]

/-- The timer never finds a name for itself. -/
theorem chooseFile_eq (files : TempFiles) (opts : TimerOptions) :
    chooseFile files opts = opts.stackdumpFile := by
  cases hempty : opts.stackdumpFile.isEmpty with
  | true =>
      rw [StackdumpFile.eq_print_nil hempty]
      exact StackdumpFile.eq_print_nil ((chooseFile_isEmpty files opts).trans hempty)
  | false => rw [chooseFile, hempty, if_neg Bool.false_ne_true, StackdumpFile.print_self]

theorem effectiveInterval_eq_self {intervalMs : ℤ} (hpos : 0 < intervalMs) :
    effectiveInterval intervalMs = intervalMs :=
  if_pos hpos

theorem newContext_eq (files : TempFiles) {opts : TimerOptions} (hpos : 0 < opts.intervalMs) :
    newContext files opts = runningTimer opts [] 0 := by
  have hfile : lastFile [opts] = opts.stackdumpFile := by
    have hconcat := lastFile_concat [] opts
    rw [List.nil_append] at hconcat
    rw [hconcat]
    split_ifs with hempty
    · rw [StackdumpFile.eq_print_nil hempty]
      rfl
    · rfl
  simp [newContext, runningTimer, chooseFile_eq, hfile, effectiveInterval_eq_self hpos]

theorem updateContext_runningTimer (opts : TimerOptions) (later : List TimerOptions) (triggers : ℕ)
    {new : TimerOptions} (hpos : 0 < new.intervalMs) :
    updateContext (runningTimer opts later triggers) new =
      runningTimer opts (later ++ [new]) triggers := by
  have hfile := lastFile_concat (opts :: later) new
  rw [List.cons_append] at hfile
  simp [updateContext, runningTimer, hfile, effectiveInterval_eq_self hpos,
    StackdumpFile.print_self]

theorem timerTrigger_runningTimer (opts : TimerOptions) (later : List TimerOptions)
    (triggers : ℕ) :
    (timerTrigger (runningTimer opts later triggers)).2 =
      runningTimer opts later (triggers + 1) := by
  simp [timerTrigger, runningTimer, Nat.add_mod]

/-- What an event does to a timer that it does not stop. -/
theorem timerStep_runningTimer {event : ConsoleEvent} (hevent : ¬ event.stops)
    (opts : TimerOptions) (later : List TimerOptions) (triggers : ℕ) :
    event.timerEvent.toList.foldl timerStep (some (runningTimer opts later triggers)) =
      some (runningTimer opts (later ++ event.options.toList)
        (triggers + if event.isTrigger then 1 else 0)) := by
  cases event with
  | trigger access dump descriptors =>
      simp [ConsoleEvent.timerEvent, ConsoleEvent.options, ConsoleEvent.isTrigger, timerStep,
        timerTrigger_runningTimer]
  | line bytes outcomes =>
      cases hrequest : lineRequest bytes with
      | none =>
          simp [ConsoleEvent.timerEvent, ConsoleEvent.options, ConsoleEvent.isTrigger, hrequest]
      | some request =>
          cases request with
          | stop => exact absurd hrequest hevent
          | start given =>
              cases given with
              | none =>
                  simp [ConsoleEvent.timerEvent, ConsoleEvent.options, ConsoleEvent.isTrigger,
                    hrequest, timerStep, TimerCommand.request, startTimerThread]
              | some given =>
                  have hpos : 0 < given.intervalMs := by
                    rw [lineRequest] at hrequest
                    split at hrequest
                    · cases hrequest
                    · split_ifs at hrequest
                      exact interval_pos_runTimerCmd (Option.some.inj hrequest)
                  simp [ConsoleEvent.timerEvent, ConsoleEvent.options, ConsoleEvent.isTrigger,
                    hrequest, timerStep, TimerCommand.request, startTimerThread,
                    updateContext_runningTimer opts later triggers hpos]

theorem foldl_runningTimer {events : List ConsoleEvent} (hevents : ∀ event ∈ events, ¬ event.stops)
    (opts : TimerOptions) (later : List TimerOptions) (triggers : ℕ) :
    (events.filterMap ConsoleEvent.timerEvent).foldl timerStep
        (some (runningTimer opts later triggers)) =
      some (runningTimer opts (later ++ events.filterMap ConsoleEvent.options)
        (triggers + events.countP ConsoleEvent.isTrigger)) := by
  induction events generalizing later triggers with
  | nil => simp
  | cons event events ih =>
      have hsplit : ((event :: events).filterMap ConsoleEvent.timerEvent).foldl timerStep
            (some (runningTimer opts later triggers)) =
          (events.filterMap ConsoleEvent.timerEvent).foldl timerStep
            (event.timerEvent.toList.foldl timerStep
              (some (runningTimer opts later triggers))) := by
        cases hevent : event.timerEvent <;> simp [hevent]
      rw [hsplit, timerStep_runningTimer (hevents event List.mem_cons_self),
        ih fun later hlater => hevents later (List.mem_cons_of_mem _ hlater)]
      congr 2
      · cases hoptions : event.options <;> simp [hoptions]
      · rw [List.countP_cons]
        omega

/-- A line that asks for the status. -/
def IsStatus (bytes : List UInt8) : Prop :=
  ∃ name, lineName bytes = some name ∧
    (name = cstr "\\s" ∨ argIs name (cstr "status") = true)

theorem runArgv_of_status {name : CString}
    (hname : name = cstr "\\s" ∨ argIs name (cstr "status") = true)
    (outcomes : CommandOutcomes) (argv : List CString) (console : Console) :
    runArgv outcomes name argv console = some (showStatus console) := by
  have hspelled : argIs name (cstr "\\s") = true ∨ argIs name (cstr "status") = true :=
    hname.imp_left fun hs => by
      rw [hs, argIs, strcaseeq]
      exact decide_eq_true rfl
  have hother {word : CString} :=
    @not_argIs_of_argIs name (cstr "\\s") (cstr "status") word hspelled
  rw [runArgv, hother (by decide) (by decide), hother (by decide) (by decide),
    hother (by decide) (by decide), hother (by decide) (by decide), hother (by decide) (by decide),
    hother (by decide) (by decide), hother (by decide) (by decide), hother (by decide) (by decide),
    hother (by decide) (by decide), hother (by decide) (by decide), hother (by decide) (by decide)]
  rcases hname with rfl | hname
  · simp
  · simp [hname]

/-- **`status` tells the settings of the timer.** After `timer` has started it, and while it is not
stopped, the options shown are those of the last `timer` command, the file is the last one given,
and the counter is the number of triggers, whatever else is typed in between. -/
theorem status_of_run {console console' : Console} {bytes status : List UInt8}
    {opts : TimerOptions} {outcomes outcomes' : CommandOutcomes} {later : List ConsoleEvent}
    (hnone : console.timer = none) (hstart : lineRequest bytes = some (.start (some opts)))
    (hcalloc : outcomes.start.calloc = true) (hcreate : outcomes.start.pthreadCreate = true)
    (hlater : ∀ event ∈ later, ¬ event.stops) (hstatus : IsStatus status)
    (hrun : consoleRun console (.line bytes outcomes :: later ++ [.line status outcomes']) =
      some console') (hexited : console'.exited = false) :
    ∃ log, console'.world.stderr = log ++ console'.outHdr (cstr "=== status ===\n") ++
      timerStatus (some (runningTimer opts (later.filterMap ConsoleEvent.options)
        (later.countP ConsoleEvent.isTrigger))) ++
      console'.outHdr (cstr "=== end status ===\n") := by
  obtain ⟨name, hname, hword⟩ := hstatus
  rw [consoleRun, List.foldlM_append, Option.bind_eq_bind, Option.bind_eq_some_iff] at hrun
  obtain ⟨shown, hbefore, hlast⟩ := hrun
  obtain ⟨next, hstep, hend⟩ := consoleRun_cons hlast hexited
  obtain rfl := Option.some.inj hend
  rw [consoleStep, runCommand_of_name hname, runArgv_of_status hword] at hstep
  obtain rfl := Option.some.inj hstep
  have htimer := timer_consoleRun hbefore hexited
  have hpos : 0 < opts.intervalMs := by
    rw [lineRequest] at hstart
    split at hstart
    · cases hstart
    · split_ifs at hstart
      exact interval_pos_runTimerCmd (Option.some.inj hstart)
  rw [List.filterMap_cons_some (show ConsoleEvent.timerEvent (.line bytes outcomes) =
      some (.command (.call (.start (some opts))) outcomes.start) by
    rw [ConsoleEvent.timerEvent, hstart, Option.map_some]), List.foldl_cons, hnone] at htimer
  have hfirst : timerStep none (.command (.call (.start (some opts))) outcomes.start) =
      some (runningTimer opts [] 0) := by
    rw [timerStep, TimerCommand.request]
    simp [startTimerThread, hcalloc, hcreate, newContext_eq outcomes.start.files hpos]
  rw [hfirst, foldl_runningTimer hlater, List.nil_append, Nat.zero_add] at htimer
  refine ⟨shown.world.stderr ++ cstr "Dbg> ", ?_⟩
  rw [← htimer]
  simp [showStatus, Console.message, FileWorld.message, Console.outHdr]

/-- A timer that triggers once between the two commands. -/
theorem status_of_run_once : ∃ console' log,
    consoleRun freshConsole [.line (bytesOf (cstr "timer -w 1s\n")) withoutGdb,
      .trigger withoutGdb.access withoutGdb.dump [],
      .line (bytesOf (cstr "Status\n")) withoutGdb] = some console' ∧
    console'.world.stderr = log ++ console'.outHdr (cstr "=== status ===\n") ++
      timerStatus (some (runningTimer ⟨1000, false, true, false, .print []⟩ [] 1)) ++
      console'.outHdr (cstr "=== end status ===\n") := by
  have hsome : (consoleRun freshConsole [.line (bytesOf (cstr "timer -w 1s\n")) withoutGdb,
      .trigger withoutGdb.access withoutGdb.dump [],
      .line (bytesOf (cstr "Status\n")) withoutGdb]).any
      (fun console => !console.exited) = true := by
    decide +kernel
  obtain ⟨console', hrun, hexited⟩ := (Option.any_eq_true _ _).mp hsome
  have hstart : lineRequest (bytesOf (cstr "timer -w 1s\n")) =
      some (.start (some ⟨1000, false, true, false, .print []⟩)) := by
    have hname : lineName (bytesOf (cstr "timer -w 1s\n")) = some (cstr "timer") := by
      decide +kernel
    have hargv : lineArgv (bytesOf (cstr "timer -w 1s\n")) =
        [cstr "timer", cstr "-w", cstr "1s"] := by
      decide +kernel
    have htimer : isTimerName (cstr "timer") = true := by decide +kernel
    rw [lineRequest, hname]
    simp only [htimer, if_true, hargv]
    rfl
  have hstatus : IsStatus (bytesOf (cstr "Status\n")) :=
    ⟨cstr "Status", by decide +kernel, .inr (by decide +kernel)⟩
  obtain ⟨log, hlog⟩ := @status_of_run freshConsole console' _ _ _ withoutGdb withoutGdb
    [.trigger withoutGdb.access withoutGdb.dump []] rfl hstart rfl rfl
    (fun event hevent hstops => by
      rw [List.mem_singleton.mp hevent] at hstops
      exact hstops) hstatus hrun (by simpa using hexited)
  exact ⟨console', log, hrun, hlog⟩

end BasC
