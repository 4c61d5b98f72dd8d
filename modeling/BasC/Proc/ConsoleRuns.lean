/-
# Runs of the debug console

Whatever is typed, and whenever the timer triggers, the console changes no file but those that
are named by an `-f` of some command. The files of a dump without a name are gone when its
command is over, and a timer without a name never dumps.
-/

import BasC.Proc.Console

namespace BasC

open CChar FileWorld

/-- The arguments that a line is split into. -/
def lineArgv (bytes : List UInt8) : List CString :=
  (argsParse bareEnv (trimLine (textOf bytes))).strings

/-- The files of the dumps that arguments name. -/
def namedPaths (argv : List CString) : Set CString :=
  {path | ∃ value, [cstr "-f", value] <:+: argv ∧
    path ∈ dumpPaths (StackdumpFile.print value).1 true}

/-- The files of a dump without a name. -/
def TempName.paths (temp : TempName) : Set CString :=
  {temp.path, temp.path ++ cstr ".gdb", temp.path ++ cstr ".bt"}

/-- The files that the arguments of an event name. -/
def ConsoleEvent.named : ConsoleEvent → Set CString
  | .line bytes _ => namedPaths (lineArgv bytes)
  | .trigger _ _ _ => ∅

/-- The files of the dumps of an event without a name. -/
def ConsoleEvent.temporary : ConsoleEvent → Set CString
  | .line _ outcomes => {path | ∃ temp, outcomes.mkstemp = some temp ∧ path ∈ temp.paths}
  | .trigger _ _ _ => ∅

/-- The process may remove its temporary files. -/
def ConsoleEvent.MayUnlink : ConsoleEvent → Prop
  | .line _ outcomes => ∀ temp, outcomes.mkstemp = some temp → ∀ path ∈ temp.paths,
      outcomes.access.mayUnlink path = true
  | .trigger _ _ _ => True

/-- Apart from the files that are named, only temporary files change, and those are gone. -/
def FileWorld.Confined (named temporary : Set CString) (w w' : FileWorld) : Prop :=
  ∀ path, path ∉ named →
    w'.files path = w.files path ∨ path ∈ temporary ∧ w'.files path = none

namespace FileWorld

variable {named named' temporary temporary' : Set CString} {w w' w'' : FileWorld}

theorem Confined.refl (named temporary : Set CString) (w : FileWorld) :
    Confined named temporary w w :=
  fun _ _ => .inl rfl

theorem Confined.trans (hfirst : Confined named temporary w w')
    (hsecond : Confined named temporary w' w'') : Confined named temporary w w'' := by
  intro path hpath
  rcases hsecond path hpath with hkept | hgone
  · rw [hkept]
    exact hfirst path hpath
  · exact .inr hgone

theorem Confined.mono (hconfined : Confined named temporary w w') (hnamed : named ⊆ named')
    (htemporary : temporary ⊆ temporary') : Confined named' temporary' w w' :=
  fun path hpath => (hconfined path fun hmem => hpath (hnamed hmem)).imp_right
    fun hgone => ⟨htemporary hgone.1, hgone.2⟩

theorem ChangesOnly.confined (hchanges : ChangesOnly named w w') :
    Confined named temporary w w' :=
  fun _ hpath => .inl (hchanges hpath)

theorem Confined.of_files_eq (hfiles : w'.files = w.files) : Confined named temporary w w' :=
  fun path _ => .inl (congrFun hfiles path)

end FileWorld

/-- The name of a dump is one of the arguments. -/
theorem infix_of_outFile {args : List CString} {value : CString}
    (hfile : outFile args = some value) : [cstr "-f", value] <:+: args := by
  fun_induction outFile args with
  | case1 value' rest =>
      obtain rfl := Option.some.inj hfile
      exact (List.prefix_append [cstr "-f", value'] rest).isInfix
  | case2 arg value' rest hother ih => exact (ih hfile).trans (List.suffix_cons _ _).isInfix
  | case3 => cases hfile

theorem files_shownDump {access : Access} {base : CString} {w w' : FileWorld}
    (hshown : shownDump access base w = some w') : w'.files = w.files := by
  unfold shownDump at hshown
  split at hshown
  · obtain ⟨text, -, rfl⟩ := Option.map_eq_some_iff.mp hshown
    rfl
  · split at hshown
    · obtain ⟨text, -, rfl⟩ := Option.map_eq_some_iff.mp hshown
      rfl
    · exact Option.some.inj hshown ▸ rfl

theorem dumpPaths_mono (base : CString) : dumpPaths base false ⊆ dumpPaths base true :=
  Set.union_subset_union_right _ fun _ hpath => absurd hpath.1 Bool.false_ne_true

/-- The names that are made of a temporary path fit their arrays. -/
theorem TempName.length_path_append (temp : TempName) {extension : CString}
    (hextension : extension.length ≤ 4) : (temp.path ++ extension).length < stackdumpFileMax := by
  have hstart : (cstr "/tmp/stackdump.").length = 15 := by decide +kernel
  have hname := temp.2
  rw [TempName.path, List.length_append, List.length_append, hstart, hname, stackdumpFileMax]
  omega

theorem TempName.outputPath_eq (temp : TempName) {extension : CString}
    (hextension : extension.length ≤ 4) :
    outputPath temp.path extension = temp.path ++ extension :=
  bounded_eq_self ((temp.length_path_append hextension).trans (by decide))

theorem TempName.derivedPath_eq (temp : TempName) {extension : CString}
    (hextension : extension.length ≤ 4) :
    derivedPath temp.path extension = temp.path ++ extension :=
  bounded_eq_self ((temp.length_path_append hextension).trans (by decide))

theorem TempName.dumpPaths_subset (temp : TempName) : dumpPaths temp.path false ⊆ temp.paths := by
  have hgdb := @TempName.outputPath_eq temp (cstr ".gdb") (by decide)
  have hbt := @TempName.outputPath_eq temp (cstr ".bt") (by decide)
  rintro path ((rfl | rfl) | ⟨hcolored, -⟩)
  · exact .inr (.inl hgdb)
  · exact .inr (.inr hbt)
  · exact absurd hcolored Bool.false_ne_true

theorem files_unlink {access : Access} {path : CString} (hpath : access.mayUnlink path = true)
    (w : FileWorld) : (w.unlink access path).files = Function.update w.files path none := by
  rw [FileWorld.unlink, if_pos hpath]

/-- What has changed at the temporary files only is as before when they are removed. -/
theorem confined_removeDump {access : Access} {temp : TempName} {w w' : FileWorld}
    (hunlink : ∀ path ∈ temp.paths, access.mayUnlink path = true)
    (hchanges : ChangesOnly temp.paths w w') :
    Confined ∅ temp.paths w (removeDump access temp.path w') := by
  have hgdb := @TempName.derivedPath_eq temp (cstr ".gdb") (by decide)
  have hbt := @TempName.derivedPath_eq temp (cstr ".bt") (by decide)
  have hfiles : (removeDump access temp.path w').files =
      Function.update (Function.update (Function.update w'.files temp.path none)
        (temp.path ++ cstr ".gdb") none) (temp.path ++ cstr ".bt") none := by
    rw [removeDump, hgdb, hbt, files_unlink (hunlink _ (.inr (.inr rfl))),
      files_unlink (hunlink _ (.inr (.inl rfl))), files_unlink (hunlink _ (.inl rfl))]
  intro path _
  rw [hfiles]
  by_cases hpath : path ∈ temp.paths
  · refine .inr ⟨hpath, ?_⟩
    rcases hpath with rfl | rfl | rfl
    · simp [Function.update_apply]
    · simp [Function.update_apply]
    · simp
  · refine .inl ?_
    simp only [TempName.paths, Set.mem_insert_iff, Set.mem_singleton_iff, not_or] at hpath
    rw [Function.update_of_ne hpath.2.2, Function.update_of_ne hpath.2.1,
      Function.update_of_ne hpath.1]
    exact hchanges (by simp [TempName.paths, hpath])

/-- `bt` changes the files that its arguments name, and leaves none of its own. -/
theorem confined_runBt {outcomes : CommandOutcomes} {argv : List CString} {w w' : FileWorld}
    (hunlink : ∀ temp, outcomes.mkstemp = some temp → ∀ path ∈ temp.paths,
      outcomes.access.mayUnlink path = true)
    (hrun : runBtBacktraceStackdump outcomes argv.tail w = some w') :
    Confined (namedPaths argv) {path | ∃ temp, outcomes.mkstemp = some temp ∧ path ∈ temp.paths}
      w w' := by
  rw [runBtBacktraceStackdump] at hrun
  cases hname : (outFile argv.tail).getD [] with
  | cons c file =>
      rw [hname] at hrun
      obtain ⟨v, hdump, hshown⟩ := Option.bind_eq_some_iff.mp hrun
      have hfile : outFile argv.tail = some (c :: file) := by
        cases hout : outFile argv.tail with
        | none => simp [hout] at hname
        | some value =>
            rw [hout] at hname
            exact congrArg some hname
      have hnamed : dumpPaths (basePath (c :: file)) false ⊆ namedPaths argv := fun path hpath =>
        ⟨c :: file, (infix_of_outFile hfile).trans (List.tail_suffix argv).isInfix,
          dumpPaths_mono _ hpath⟩
      have hchanges := (changesOnly_stackdump hdump).mono hnamed
      exact hchanges.confined.trans (Confined.of_files_eq (files_shownDump hshown))
  | nil =>
      rw [hname] at hrun
      cases htemp : outcomes.mkstemp with
      | none =>
          rw [htemp] at hrun
          exact Option.some.inj hrun ▸ Confined.refl _ _ _
      | some temp =>
          rw [htemp] at hrun
          obtain ⟨v, hdump, rfl⟩ := Option.map_eq_some_iff.mp hrun
          obtain ⟨u, hdump, hshown⟩ := Option.bind_eq_some_iff.mp hdump
          have hcreated := @changesOnly_update temp.paths w temp.path (.inl rfl) (some [])
          have hchanges := hcreated.trans ((changesOnly_stackdump hdump).mono temp.dumpPaths_subset)
          have hsame : ChangesOnly temp.paths u v := fun path _ =>
            congrFun (files_shownDump hshown) path
          have hconfined := confined_removeDump (hunlink temp htemp) (hchanges.trans hsame)
          exact hconfined.mono (Set.empty_subset _) fun path hpath => ⟨temp, rfl, hpath⟩

/-! ## The file of the timer -/

theorem file_interval (args : TimerArgs) (s : CString) :
    (args.interval s).opts.stackdumpFile = args.opts.stackdumpFile := by
  rw [TimerArgs.interval]
  split_ifs <;> rfl

theorem file_flag (args : TimerArgs) (arg : CString) :
    (args.flag arg).opts.stackdumpFile = args.opts.stackdumpFile := by
  unfold TimerArgs.flag
  split_ifs
  · rfl
  · rfl
  · rfl
  · rfl
  · split
    · rfl
    · split_ifs
      · exact file_interval args arg
      · rfl

/-- The file that the arguments of `timer` leave is the one before, or one of them. -/
theorem file_parseTimerArgs (argv : List CString) (args : TimerArgs) :
    (parseTimerArgs argv args).opts.stackdumpFile = args.opts.stackdumpFile ∨
      ∃ value, [cstr "-f", value] <:+: argv ∧
        (parseTimerArgs argv args).opts.stackdumpFile = .print value := by
  have hlater {argv later : List CString} (hlater : later <:+ argv) {file : StackdumpFile}
      (hfile : ∃ value, [cstr "-f", value] <:+: later ∧ file = .print value) :
      ∃ value, [cstr "-f", value] <:+: argv ∧ file = .print value :=
    hfile.imp fun _ hvalue => ⟨hvalue.1.trans hlater.isInfix, hvalue.2⟩
  fun_induction parseTimerArgs argv args with
  | case1 args => exact .inl rfl
  | case2 arg args => exact .inl (file_flag args arg)
  | case3 value rest args ih =>
      refine .inr ?_
      rcases ih with hkept | hgiven
      · exact ⟨value, (List.prefix_append [cstr "-f", value] rest).isInfix, hkept⟩
      · exact hlater ((List.suffix_cons value rest).trans (List.suffix_cons _ _)) hgiven
  | case4 arg value rest args hfile hinterval ih =>
      rw [file_interval] at ih
      exact ih.imp_right (hlater ((List.suffix_cons value rest).trans (List.suffix_cons _ _)))
  | case5 arg value rest args hfile hinterval ih =>
      rw [file_flag] at ih
      exact ih.imp_right (hlater (List.suffix_cons _ _))

/-- A timer that runs has no file, or dumps to files that were named. -/
def TimerNamed (named : Set CString) (timer : Option TimerContext) : Prop :=
  ∀ context, timer = some context → context.opts.stackdumpFile.isEmpty = true ∨
    dumpPaths context.opts.stackdumpFile.1 true ⊆ named

theorem TimerNamed.mono {named named' : Set CString} {timer : Option TimerContext}
    (htimer : TimerNamed named timer) (hnamed : named ⊆ named') : TimerNamed named' timer :=
  fun context hcontext => (htimer context hcontext).imp_right fun hfile => hfile.trans hnamed

/-- A file that is printed to its array once more is the same. -/
theorem StackdumpFile.print_self (file : StackdumpFile) : StackdumpFile.print file.1 = file :=
  Subtype.ext (List.take_of_length_le (Nat.le_sub_one_of_lt file.2))

/-- A start leaves the timer a file that it has had or is given. -/
theorem timerNamed_startTimerThread {named : Set CString} {timer : Option TimerContext}
    (htimer : TimerNamed named timer) {opts : TimerOptions}
    (hopts : opts.stackdumpFile.isEmpty = true ∨ dumpPaths opts.stackdumpFile.1 true ⊆ named)
    (outcomes : StartOutcomes) :
    TimerNamed named (startTimerThread timer (some opts) outcomes).1 := by
  intro context hcontext
  cases timer with
  | some old =>
      obtain rfl := Option.some.inj hcontext
      rw [updateContext_isEmpty]
      simp only [updateContext, StackdumpFile.print_self]
      cases hempty : opts.stackdumpFile.isEmpty with
      | true => simpa [hempty] using htimer old rfl
      | false => simpa [hempty] using hopts
  | none =>
      simp only [startTimerThread] at hcontext
      split_ifs at hcontext
      obtain rfl := Option.some.inj hcontext
      simp only [newContext, chooseFile_isEmpty]
      cases hempty : opts.stackdumpFile.isEmpty with
      | true => exact .inl rfl
      | false =>
          rw [chooseFile, hempty, if_neg Bool.false_ne_true, StackdumpFile.print_self]
          simpa [hempty] using hopts

/-- The options that a line gives to the timer name a file of that line, or none. -/
theorem file_runTimerCmd {argv : List CString} {opts : TimerOptions}
    (hrequest : runTimerCmd argv = .start (some opts)) :
    opts.stackdumpFile.isEmpty = true ∨
      dumpPaths opts.stackdumpFile.1 true ⊆ namedPaths argv := by
  have hfile := file_parseTimerArgs argv.tail
    ⟨⟨timerDefaultIntervalMs, false, false, false, .print []⟩, false⟩
  rw [runTimerCmd] at hrequest
  generalize parseTimerArgs argv.tail _ = args at hfile hrequest
  have hopts : opts.stackdumpFile = args.opts.stackdumpFile := by
    simp only at hrequest
    split_ifs at hrequest
    · obtain rfl := Option.some.inj (TimerRequest.start.inj hrequest)
      rfl
    · obtain rfl := Option.some.inj (TimerRequest.start.inj hrequest)
      rfl
  rw [hopts]
  rcases hfile with hnone | ⟨value, hvalue, hgiven⟩
  · exact .inl (hnone ▸ rfl)
  · refine .inr fun path hpath => ⟨value, hvalue.trans (List.tail_suffix argv).isInfix, ?_⟩
    rwa [← hgiven]

/-- `timer` leaves the timer a file that was named. -/
theorem timerNamed_timerCommand {named : Set CString} {outcomes : CommandOutcomes}
    {argv : List CString} {console : Console} (htimer : TimerNamed named console.timer)
    (hnamed : namedPaths argv ⊆ named) :
    TimerNamed named (timerCommand outcomes argv console).timer := by
  cases hrequest : runTimerCmd argv with
  | stop =>
      intro context hcontext
      simp only [timerCommand, hrequest] at hcontext
      cases hstopped : console.timer <;>
        simp [Console.message, stopTimerThread, hstopped] at hcontext
  | start opts =>
      cases opts with
      | none =>
          simp only [timerCommand, hrequest]
          exact htimer
      | some opts =>
          simp only [timerCommand, hrequest]
          have hopts := (file_runTimerCmd hrequest).imp_right fun hpaths => hpaths.trans hnamed
          exact timerNamed_startTimerThread htimer hopts outcomes.start

theorem files_timerCommand (outcomes : CommandOutcomes) (argv : List CString)
    (console : Console) :
    (timerCommand outcomes argv console).world.files = console.world.files := by
  unfold timerCommand
  split <;> rfl

/-- What holds of the console in a run from `w`: only files that are named and temporary files
have changed, and the timer dumps to named files only. -/
structure Console.Tidy (named temporary : Set CString) (w : FileWorld) (console : Console) :
    Prop where
  confined : Confined named temporary w console.world
  timerNamed : TimerNamed named console.timer

section Step

variable {named temporary : Set CString} {w : FileWorld} {console console' : Console}

/-- A step that changes no file and leaves the timer alone. -/
theorem Console.Tidy.of_same (htidy : console.Tidy named temporary w)
    (hfiles : console'.world.files = console.world.files)
    (htimer : console'.timer = console.timer) : console'.Tidy named temporary w :=
  ⟨htidy.confined.trans (Confined.of_files_eq hfiles), htimer ▸ htidy.timerNamed⟩

theorem tidy_runArgv {outcomes : CommandOutcomes} {name : CString} {argv : List CString}
    (htidy : console.Tidy named temporary w) (hnamed : namedPaths argv ⊆ named)
    (hunlink : ∀ temp, outcomes.mkstemp = some temp → temp.paths ⊆ temporary ∧
      ∀ path ∈ temp.paths, outcomes.access.mayUnlink path = true)
    (hrun : runArgv outcomes name argv console = some console') :
    console'.Tidy named temporary w := by
  unfold runArgv at hrun
  split_ifs at hrun
  · obtain ⟨world, hworld, rfl⟩ := Option.map_eq_some_iff.mp hrun
    have hbt := confined_runBt (fun temp htemp => (hunlink temp htemp).2) hworld
    refine ⟨htidy.confined.trans (hbt.mono hnamed ?_), htidy.timerNamed⟩
    rintro path ⟨temp, htemp, hpath⟩
    exact (hunlink temp htemp).1 hpath
  · exact Option.some.inj hrun ▸ htidy.of_same rfl rfl
  · exact Option.some.inj hrun ▸ htidy.of_same rfl rfl
  · obtain rfl := Option.some.inj hrun
    exact ⟨htidy.confined.trans (Confined.of_files_eq (files_timerCommand _ _ _)),
      timerNamed_timerCommand htidy.timerNamed hnamed⟩
  · exact Option.some.inj hrun ▸ htidy.of_same rfl rfl
  · exact Option.some.inj hrun ▸ htidy.of_same rfl rfl
  · obtain rfl := Option.some.inj hrun
    unfold runAction
    split
    · exact htidy.of_same rfl rfl
    · exact htidy.of_same rfl rfl
  · obtain rfl := Option.some.inj hrun
    unfold runExit
    split_ifs
    · exact htidy.of_same rfl rfl
    · exact htidy.of_same rfl rfl
  · exact Option.some.inj hrun ▸ htidy.of_same rfl rfl

theorem tidy_runTimerAction {access : Access} {dump : DumpOutcomes} {descriptors : CString}
    {action : TimerAction} (htidy : console.Tidy named temporary w)
    (haction : ∀ file, action = .stackdump file → dumpPaths file true ⊆ named)
    (hrun : runTimerAction access dump descriptors console action = some console') :
    console'.Tidy named temporary w := by
  cases action with
  | health counter => exact Option.some.inj hrun ▸ htidy.of_same rfl rfl
  | dumpFd => exact Option.some.inj hrun ▸ htidy.of_same rfl rfl
  | stackdump file =>
      obtain ⟨world, hworld, rfl⟩ := Option.map_eq_some_iff.mp hrun
      have hchanges := (changesOnly_stackdump hworld).mono (haction file rfl)
      exact ⟨htidy.confined.trans hchanges.confined, htidy.timerNamed⟩

/-- A trigger dumps to the file of the timer only. -/
theorem file_of_mem_timerTrigger {context : TimerContext} {file : CString}
    (hmem : TimerAction.stackdump file ∈ (timerTrigger context).1) :
    context.opts.stackdumpFile.isEmpty = false ∧ file = context.opts.stackdumpFile.1 := by
  simp only [timerTrigger, List.mem_append] at hmem
  rcases hmem with (hmem | hmem) | hmem
  · split_ifs at hmem <;> simp at hmem
  · split_ifs at hmem with hdump
    · rw [Bool.and_eq_true, Bool.not_eq_true'] at hdump
      exact ⟨hdump.2, TimerAction.stackdump.inj (List.mem_singleton.mp hmem)⟩
    · cases hmem
  · split_ifs at hmem <;> simp at hmem

theorem tidy_runTrigger {access : Access} {dump : DumpOutcomes} {descriptors : CString}
    (htidy : console.Tidy named temporary w)
    (hrun : runTrigger access dump descriptors console = some console') :
    console'.Tidy named temporary w := by
  unfold runTrigger at hrun
  split at hrun
  · exact Option.some.inj hrun ▸ htidy
  · rename_i context hcontext
    have hstart : Console.Tidy named temporary w
        { console with timer := some (timerTrigger context).2 } :=
      ⟨htidy.confined, fun _ hsome => Option.some.inj hsome ▸ htidy.timerNamed context hcontext⟩
    refine Lib.foldlM_invariant (fun action haction s t hs hstep => ?_) hstart hrun
    refine tidy_runTimerAction hs (fun file hfile => ?_) hstep
    obtain ⟨hgiven, rfl⟩ := file_of_mem_timerTrigger (hfile ▸ haction)
    exact (htidy.timerNamed context hcontext).resolve_left (by simp [hgiven])

theorem tidy_consoleStep {event : ConsoleEvent} (htidy : console.Tidy named temporary w)
    (hnamed : event.named ⊆ named) (htemporary : event.temporary ⊆ temporary)
    (hunlink : event.MayUnlink) (hstep : consoleStep console event = some console') :
    console'.Tidy named temporary w := by
  cases event with
  | trigger access dump descriptors => exact tidy_runTrigger htidy hstep
  | line bytes outcomes =>
      have hprompt : (console.message (cstr "Dbg> ")).Tidy named temporary w :=
        htidy.of_same rfl rfl
      simp only [consoleStep, runCommand] at hstep
      split at hstep
      · exact Option.some.inj hstep ▸ hprompt
      · rename_i c text hline
        split_ifs at hstep
        · exact Option.some.inj hstep ▸ hprompt.of_same rfl rfl
        · exact Option.some.inj hstep ▸ hprompt
        · split at hstep
          · refine tidy_runArgv hprompt ?_ (fun temp htemp => ⟨?_, hunlink temp htemp⟩) hstep
            · rwa [ConsoleEvent.named, lineArgv, hline] at hnamed
            · exact fun path hpath => htemporary ⟨temp, htemp, hpath⟩
          · exact Option.some.inj hstep ▸ hprompt

end Step

/-- **The console changes only files that are named.** In a run from a console without a timer, in
which no frame number leaves an `int`, each other file is as it was when the run ends, or was a
temporary file and is gone. -/
theorem consoleRun_confined {events : List ConsoleEvent} {console console' : Console}
    (htimer : console.timer = none) (hunlink : ∀ event ∈ events, event.MayUnlink)
    (hrun : consoleRun console events = some console') :
    Confined {path | ∃ event ∈ events, path ∈ event.named}
      {path | ∃ event ∈ events, path ∈ event.temporary} console.world console'.world := by
  have hstart : console.Tidy {path | ∃ event ∈ events, path ∈ event.named}
      {path | ∃ event ∈ events, path ∈ event.temporary} console.world :=
    ⟨Confined.refl _ _ _, fun context hcontext => by simp [htimer] at hcontext⟩
  have hend := Lib.foldlM_invariant (fun event hevent s t hs hstep => ?_) hstart hrun
  · exact hend.confined
  · split_ifs at hstep
    · exact Option.some.inj hstep ▸ hs
    · exact tidy_consoleStep hs (fun path hpath => ⟨event, hevent, hpath⟩)
        (fun path hpath => ⟨event, hevent, hpath⟩) (hunlink event hevent) hstep

/-- A console that has just been started, without files. -/
def freshConsole : Console := ⟨⟨fun _ => none, [], []⟩, none, true, false, 0, false⟩

/-- A command whose calls succeed, but for gdb, which is not there. -/
def withoutGdb : CommandOutcomes where
  access := ⟨fun _ => true, fun _ => true, fun _ => true⟩
  dump := ⟨none, [], .exited 127, []⟩
  mkstemp := some ⟨cstr "aaaaaa", by decide +kernel⟩
  start := ⟨true, true, namedFiles⟩
  threads := []
  descriptors := []

/-- One line, `bt`, on a machine without gdb. -/
theorem consoleRun_confined_bt : ∃ console',
    consoleRun freshConsole [.line (bytesOf (cstr "bt\n")) withoutGdb] = some console' ∧
      Confined {path | ∃ event ∈ [ConsoleEvent.line (bytesOf (cstr "bt\n")) withoutGdb],
          path ∈ event.named}
        {path | ∃ event ∈ [ConsoleEvent.line (bytesOf (cstr "bt\n")) withoutGdb],
          path ∈ event.temporary} freshConsole.world console'.world := by
  have hsome : (consoleRun freshConsole
      [.line (bytesOf (cstr "bt\n")) withoutGdb]).isSome = true := by
    decide +kernel
  obtain ⟨console', hrun⟩ := Option.isSome_iff_exists.mp hsome
  refine ⟨console', hrun, consoleRun_confined rfl (fun event hevent => ?_) hrun⟩
  rw [List.mem_singleton.mp hevent]
  exact fun temp _ path _ => rfl

end BasC
