/-
# Verbosity over a run

`--verbose` and `--quiet` move the level of the log and the levels of the program's loggers, and
messages are printed by the levels of their time. What a run prints is known from its events: each
level is where it was last set, moved by the options since.
-/

import BasC.Lib.Transition
import BasC.Log.Lines
import Mathlib.Data.List.Count

namespace BasC

open CChar

variable {ι : Type} [DecidableEq ι]

/-- What the program gives: how `program.c` is compiled, `program_title`, its logger, and the
loggers of the `parse_options_ctx`. -/
structure LogContext (ι : Type) where
  unit : LogUnit
  title : CString
  logger : ι
  loggers : List ι

/-- The levels, the flags of the options and what has been printed. -/
structure LogState (ι : Type) where
  logLevel : ℤ
  loggers : ι → Logger
  optErrorContinue : Bool
  optForce : Bool
  stdout : CString
  stderr : CString

/-- The options that every program has. -/
inductive DefaultOption
  | errorContinue
  | force
  | quiet
  | verbose
  | version
  deriving DecidableEq

/-- The `switch` of `parse_option_defaults`, over the option without its dashes. -/
def defaultOption (shortopt : Bool) (opt : CString) : Option DefaultOption :=
  match opt.head? with
  | none => none
  | some c =>
      if [c] = cstr "e" then
        if opt = cstr "error-continue" then some .errorContinue else none
      else if [c] = cstr "f" then
        if shortopt || opt = cstr "force" then some .force else none
      else if [c] = cstr "q" then
        if shortopt || opt = cstr "quiet" then some .quiet else none
      else if [c] = cstr "v" then
        if shortopt || opt = cstr "verbose" then some .verbose
        else if opt = cstr "version" then some .version
        else none
      else none

/-- The option that an argument names, from behind its first dash. -/
def namedOption (opt : CString) : Option DefaultOption :=
  defaultOption (opt.head? ≠ some dash) (opt.dropWhile (· = dash))

/-- How the levels move. -/
def DefaultOption.change : DefaultOption → ℤ
  | verbose => 1
  | quiet => -1
  | _ => 0

/-- The lines of `--version`. -/
def versionText (title : CString) : CString :=
  title ++ [newline] ++ cstr "Written by Lenik, (at) 99jsj.com" ++ [newline]

/-- The error of an option that is not known. -/
def badOption (opt : CString) (val : Option CString) : CString :=
  cstr "Bad option: " ++ opt ++ [blank] ++ stringArg val

namespace LogState

variable (s : LogState ι)

/-- Something is printed. -/
def print (text : CString) : OutStream → LogState ι
  | .stdout => { s with stdout := s.stdout ++ text }
  | .stderr => { s with stderr := s.stderr ++ text }

/-- A logger is changed. -/
def update (i : ι) (logger : Logger) : LogState ι :=
  { s with loggers := Function.update s.loggers i logger }

/-- The loop over the loggers of the context. -/
def changeLoggers (delta : ℤ) (loggers : List ι) : Option (LogState ι) :=
  loggers.foldlM (fun s i => ((s.loggers i).change delta).map (s.update i)) s

/-- `log_level` and the loggers move. -/
def changeLevels (ctx : LogContext ι) (delta : ℤ) : Option (LogState ι) :=
  (Logger.addLevel s.logLevel delta).bind fun level =>
    { s with logLevel := level }.changeLoggers delta ctx.loggers

end LogState

/-- What `parse_option_defaults` does for an option. -/
def applyOption (ctx : LogContext ι) (s : LogState ι) : DefaultOption → Option (LogState ι)
  | .errorContinue => some { s with optErrorContinue := true }
  | .force => some { s with optForce := true }
  | .quiet => s.changeLevels ctx (-1)
  | .verbose => s.changeLevels ctx 1
  | .version => some (s.print (versionText ctx.title) .stdout)

/-- `parse_option_defaults`; nothing when the assertion fails or a level leaves the `int`s. -/
def parseOptionDefaults (ctx : LogContext ι) (opt : CString) (val : Option CString)
    (moment : LogMoment) (s : LogState ι) : Option (Bool × LogState ι) :=
  match opt with
  | [] => none
  | c :: opt =>
      if c = dash then
        match namedOption opt with
        | some option => (applyOption ctx s option).map (true, ·)
        | none =>
            some (false, s.print (ctx.unit.logErr s.logLevel
              (badOption (opt.dropWhile (· = dash)) val) moment) .stderr)
      else none

/-- `parse_option`, where the program has none of its own. -/
def parseOption (ctx : LogContext ι) (opt : CString) (val : Option CString) (moment : LogMoment)
    (s : LogState ι) : Option (Bool × LogState ι) :=
  parseOptionDefaults ctx opt val moment
    (s.print ((s.loggers ctx.logger).warn (cstr "parse_option() is not implemented")) .stderr)

/-- What happens in a program that logs. -/
inductive LogEvent (ι : Type)
  /-- `parse_option` is called. -/
  | option (opt : CString) (val : Option CString) (moment : LogMoment)
  /-- `parse_option_defaults` is called from the program's own `parse_option`. -/
  | optionDefaults (opt : CString) (val : Option CString) (moment : LogMoment)
  /-- `log_emerg` and the others. -/
  | log (unit : LogUnit) (level : ℤ) (message : CString) (moment : LogMoment)
  /-- `log_perr` and `log_pwarn`. -/
  | perror (unit : LogUnit) (level : ℤ) (message : CString) (moment : LogMoment)
  /-- `logger_error` and the others. -/
  | message (logger : ι) (severity : Severity) (message : CString)
  | setLevel (logger : ι) (value : ℤ)
  | more (logger : ι)
  | less (logger : ι)
  | reset (logger : ι)

/-- One event. -/
def logStep (ctx : LogContext ι) (s : LogState ι) : LogEvent ι → Option (LogState ι)
  | .option opt val moment => (parseOption ctx opt val moment s).map Prod.snd
  | .optionDefaults opt val moment => (parseOptionDefaults ctx opt val moment s).map Prod.snd
  | .log unit level message moment =>
      some (s.print (unit.logIfLevel s.logLevel level message moment) .stderr)
  | .perror unit level message moment =>
      some (s.print (unit.logPerrorIfLevel s.logLevel level message moment) .stderr)
  | .message i severity message =>
      some (s.print ((s.loggers i).print severity message) severity.stream)
  | .setLevel i value => some (s.update i ((s.loggers i).setLevel value))
  | .more i => (s.loggers i).more.map (s.update i)
  | .less i => (s.loggers i).less.map (s.update i)
  | .reset i => some (s.update i (s.loggers i).reset)

/-- A run. -/
def logRun (ctx : LogContext ι) (s : LogState ι) (events : List (LogEvent ι)) :
    Option (LogState ι) :=
  events.foldlM (logStep ctx) s

namespace LogEvent

/-- The option that an event names. -/
def named : LogEvent ι → Option DefaultOption
  | option opt _ _ | optionDefaults opt _ _ => namedOption opt.tail
  | _ => none

/-- How an event moves `log_level`. -/
def change (event : LogEvent ι) : ℤ := event.named.elim 0 DefaultOption.change

/-- The level that an event gives to a logger, which has this default. -/
def given (i : ι) (levelDefault : ℤ) : LogEvent ι → Option ℤ
  | setLevel j value => if j = i then some value else none
  | reset j => if j = i then some levelDefault else none
  | _ => none

/-- Whether an event leaves the level of the logger to be moved. -/
def keeps (i : ι) (levelDefault : ℤ) (event : LogEvent ι) : Bool :=
  (event.given i levelDefault).isNone

/-- How an event moves the level of a logger: an option once for each place that the logger has in
the context. -/
def shift (ctx : LogContext ι) (i : ι) : LogEvent ι → ℤ
  | more j => if j = i then 1 else 0
  | less j => if j = i then -1 else 0
  | event => ctx.loggers.count i * event.change

/-- What `parse_option_defaults` prints. -/
def optionText (ctx : LogContext ι) (logLevel : ℤ) (opt : CString) (val : Option CString)
    (moment : LogMoment) : OutStream → CString
  | .stdout => if namedOption opt = some .version then versionText ctx.title else []
  | .stderr =>
      if namedOption opt = none then
        ctx.unit.logErr logLevel (badOption (opt.dropWhile (· = dash)) val) moment
      else []

/-- What an event prints at these levels. -/
def text (ctx : LogContext ι) (logLevel : ℤ) (loggers : ι → Logger) :
    LogEvent ι → OutStream → CString
  | option opt val moment, stream =>
      (if stream = .stderr then
        (loggers ctx.logger).warn (cstr "parse_option() is not implemented") else []) ++
        optionText ctx logLevel opt.tail val moment stream
  | optionDefaults opt val moment, stream => optionText ctx logLevel opt.tail val moment stream
  | log unit level line moment, stream =>
      if stream = .stderr then unit.logIfLevel logLevel level line moment else []
  | perror unit level line moment, stream =>
      if stream = .stderr then unit.logPerrorIfLevel logLevel level line moment else []
  | message i severity line, stream =>
      if stream = severity.stream then (loggers i).print severity line else []
  | _, _ => []

end LogEvent

/-- `log_level` behind some events. -/
def logLevelAfter (level : ℤ) (events : List (LogEvent ι)) : ℤ :=
  level + (events.map LogEvent.change).sum

/-- The level of a logger behind some events: where it was set last, and how it has been moved
since. -/
def loggerLevelAfter (ctx : LogContext ι) (i : ι) (logger : Logger) (events : List (LogEvent ι)) :
    ℤ :=
  ((events.rdropWhile (LogEvent.keeps i logger.levelDefault)).getLast?.bind
      (LogEvent.given i logger.levelDefault)).getD logger.level +
    ((events.rtakeWhile (LogEvent.keeps i logger.levelDefault)).map (LogEvent.shift ctx i)).sum

/-- The loggers behind some events. -/
def loggersAfter (ctx : LogContext ι) (loggers : ι → Logger) (events : List (LogEvent ι)) :
    ι → Logger :=
  fun i => (loggers i).setLevel (loggerLevelAfter ctx i (loggers i) events)

/-- What is printed to a stream. -/
def LogState.text (s : LogState ι) : OutStream → CString
  | .stdout => s.stdout
  | .stderr => s.stderr

/-- What a run prints: each event by the levels behind the events in front of it. -/
def printed (ctx : LogContext ι) (s : LogState ι) (events : List (LogEvent ι))
    (stream : OutStream) : CString :=
  Lib.eachAfter (fun before event => event.text ctx (logLevelAfter s.logLevel before)
    (loggersAfter ctx s.loggers before) stream) [] events

/-! ## One event -/

/-- What lies between two states. -/
structure LogState.Moves (s t : LogState ι) (change : ℤ) (level : ι → ℤ)
    (option : Option DefaultOption) (text : OutStream → CString) : Prop where
  logLevel : t.logLevel = s.logLevel + change
  loggers : ∀ i, t.loggers i = (s.loggers i).setLevel (level i)
  errorContinue : t.optErrorContinue = (s.optErrorContinue || option = some .errorContinue)
  force : t.optForce = (s.optForce || option = some .force)
  text : ∀ stream, t.text stream = s.text stream ++ text stream

namespace LogState

variable {s t : LogState ι}

omit [DecidableEq ι] in
theorem Moves.congr {change : ℤ} {level level' : ι → ℤ} {option : Option DefaultOption}
    {text text' : OutStream → CString} (hmoves : s.Moves t change level option text)
    (hlevel : ∀ i, level' i = level i) (htext : ∀ stream, text' stream = text stream) :
    s.Moves t change level' option text' := by
  obtain rfl : level' = level := funext hlevel
  obtain rfl : text' = text := funext htext
  exact hmoves

omit [DecidableEq ι] in
theorem text_print (s : LogState ι) (text : CString) (stream stream' : OutStream) :
    (s.print text stream).text stream' =
      s.text stream' ++ if stream' = stream then text else [] := by
  cases stream <;> cases stream' <;> simp [print, LogState.text]

omit [DecidableEq ι] in
/-- Printing moves nothing else. -/
theorem moves_print (s : LogState ι) (text : CString) (stream : OutStream) :
    s.Moves (s.print text stream) 0 (fun i => (s.loggers i).level) none
      fun stream' => if stream' = stream then text else [] := by
  cases stream <;> exact ⟨(add_zero _).symm, fun _ => rfl, (Bool.or_false _).symm,
    (Bool.or_false _).symm, fun stream' => text_print s text _ stream'⟩

/-- A logger with another level. -/
theorem moves_update (s : LogState ι) (i : ι) (level : ℤ) :
    s.Moves (s.update i ((s.loggers i).setLevel level)) 0
      (fun j => if i = j then level else (s.loggers j).level) none fun _ => [] where
  logLevel := (add_zero _).symm
  loggers j := by
    show Function.update s.loggers i _ j = _
    by_cases hj : i = j
    · subst hj
      rw [Function.update_self, if_pos rfl]
    · rw [Function.update_of_ne (Ne.symm hj), if_neg hj]
      rfl
  errorContinue := (Bool.or_false _).symm
  force := (Bool.or_false _).symm
  text stream := by
    cases stream <;> exact (List.append_nil _).symm

/-- Each place in the list moves its logger. -/
theorem moves_changeLoggers {delta : ℤ} {loggers : List ι}
    (hchange : s.changeLoggers delta loggers = some t) :
    s.Moves t 0 (fun i => (s.loggers i).level + loggers.count i * delta) none fun _ => [] := by
  induction loggers generalizing s with
  | nil =>
      obtain rfl : s = t := Option.some.inj hchange
      refine ⟨(add_zero _).symm, fun i => ?_, (Bool.or_false _).symm, (Bool.or_false _).symm,
        fun stream => (List.append_nil _).symm⟩
      simp [Logger.setLevel]
  | cons i loggers ih =>
      rw [changeLoggers, List.foldlM_cons, Option.bind_eq_bind, Option.bind_eq_some_iff] at hchange
      obtain ⟨u, hfirst, hrest⟩ := hchange
      obtain ⟨logger, hlogger, rfl⟩ := Option.map_eq_some_iff.mp hfirst
      obtain ⟨level, hlevel, rfl⟩ := Option.map_eq_some_iff.mp hlogger
      have hvalue : level = (s.loggers i).level + delta := by
        rw [Logger.addLevel] at hlevel
        split_ifs at hlevel
        exact (Option.some.inj hlevel).symm
      have hone := moves_update s i level
      have hmoves := ih hrest
      refine ⟨hmoves.logLevel.trans (congrArg (· + 0) (hone.logLevel.trans (add_zero _))),
        fun j => ?_, hmoves.errorContinue, hmoves.force, fun stream => ?_⟩
      · rw [hmoves.loggers j, hone.loggers j]
        by_cases hj : i = j
        · subst hj
          simp only [if_pos, Logger.setLevel, List.count_cons_self, hvalue]
          congr 1
          push_cast
          ring
        · simp only [if_neg hj, Logger.setLevel, List.count_cons_of_ne hj]
      · rw [hmoves.text stream, hone.text stream]
        simp

/-- `log_level` and the loggers move together. -/
theorem moves_changeLevels {ctx : LogContext ι} {delta : ℤ}
    (hchange : s.changeLevels ctx delta = some t) :
    s.Moves t delta (fun i => (s.loggers i).level + ctx.loggers.count i * delta) none
      fun _ => [] := by
  obtain ⟨level, hlevel, hloggers⟩ := Option.bind_eq_some_iff.mp hchange
  have hvalue : level = s.logLevel + delta := by
    rw [Logger.addLevel] at hlevel
    split_ifs at hlevel
    exact (Option.some.inj hlevel).symm
  have hmoves := moves_changeLoggers hloggers
  exact ⟨(hmoves.logLevel.trans (add_zero _)).trans hvalue, hmoves.loggers, hmoves.errorContinue,
    hmoves.force, fun stream => hmoves.text stream |>.trans (by cases stream <;> rfl)⟩

omit [DecidableEq ι] in
/-- What is printed first is in front. -/
theorem Moves.print {text text' : OutStream → CString} {change : ℤ} {level : ι → ℤ}
    {option : Option DefaultOption} {line : CString} {stream : OutStream}
    (hmoves : (s.print line stream).Moves t change level option text)
    (htext : ∀ stream', text' stream' =
      (if stream' = stream then line else []) ++ text stream') :
    s.Moves t change level option text' := by
  have hprint := moves_print s line stream
  refine ⟨hmoves.logLevel.trans (congrArg (· + change) (hprint.logLevel.trans (add_zero _))),
    fun i => ?_, ?_, ?_, fun stream' => ?_⟩
  · rw [hmoves.loggers i, hprint.loggers i]
    rfl
  · rw [hmoves.errorContinue, hprint.errorContinue]
    simp
  · rw [hmoves.force, hprint.force]
    simp
  · rw [hmoves.text, hprint.text, htext, List.append_assoc]

omit [DecidableEq ι] in
/-- An option that sets no flag. -/
theorem Moves.named {change : ℤ} {level : ι → ℤ} {text : OutStream → CString}
    {option : DefaultOption} (hmoves : s.Moves t change level none text)
    (hcontinue : option ≠ .errorContinue) (hforce : option ≠ .force) :
    s.Moves t change level (some option) text where
  logLevel := hmoves.logLevel
  loggers := hmoves.loggers
  errorContinue := by simp [hmoves.errorContinue, hcontinue]
  force := by simp [hmoves.force, hforce]
  text := hmoves.text

theorem moves_applyOption {ctx : LogContext ι} {option : DefaultOption}
    (happly : applyOption ctx s option = some t) :
    s.Moves t option.change (fun i => (s.loggers i).level + ctx.loggers.count i * option.change)
      (some option) fun stream =>
        if stream = .stdout ∧ option = .version then versionText ctx.title else [] := by
  have hstill : ∀ i, s.loggers i =
      (s.loggers i).setLevel ((s.loggers i).level + ctx.loggers.count i * 0) := fun i => by
    rw [mul_zero, add_zero]
    rfl
  cases option with
  | errorContinue =>
      obtain rfl := Option.some.inj happly
      refine ⟨(add_zero _).symm, hstill, by simp, by simp, fun stream => ?_⟩
      cases stream <;> simp [LogState.text]
  | force =>
      obtain rfl := Option.some.inj happly
      refine ⟨(add_zero _).symm, hstill, by simp, by simp, fun stream => ?_⟩
      cases stream <;> simp [LogState.text]
  | quiet =>
      exact ((moves_changeLevels happly).named (by decide) (by decide)).congr (fun _ => rfl)
        fun stream => by simp
  | verbose =>
      exact ((moves_changeLevels happly).named (by decide) (by decide)).congr (fun _ => rfl)
        fun stream => by simp
  | version =>
      obtain rfl := Option.some.inj happly
      exact ((moves_print s (versionText ctx.title) .stdout).named (by decide) (by decide)).congr
        (fun i => congrArg Logger.level (hstill i).symm) fun stream => by simp

/-- **An option.** -/
theorem moves_parseOptionDefaults {ctx : LogContext ι} {opt : CString} {val : Option CString}
    {moment : LogMoment} {ok : Bool}
    (hparse : parseOptionDefaults ctx opt val moment s = some (ok, t)) :
    s.Moves t ((namedOption opt.tail).elim 0 DefaultOption.change)
      (fun i => (s.loggers i).level +
        ctx.loggers.count i * (namedOption opt.tail).elim 0 DefaultOption.change)
      (namedOption opt.tail) (LogEvent.optionText ctx s.logLevel opt.tail val moment) := by
  cases opt with
  | nil => cases hparse
  | cons c opt =>
      rw [parseOptionDefaults] at hparse
      split_ifs at hparse with hc
      rw [List.tail_cons]
      cases hnamed : namedOption opt with
      | none =>
          rw [hnamed] at hparse
          obtain ⟨-, rfl⟩ := Prod.mk.inj (Option.some.inj hparse)
          have hprint := moves_print s
            (ctx.unit.logErr s.logLevel (badOption (opt.dropWhile (· = dash)) val) moment) .stderr
          refine ⟨hprint.logLevel, fun i => ?_, hprint.errorContinue, hprint.force,
            fun stream => ?_⟩
          · rw [hprint.loggers i, Option.elim_none, mul_zero, add_zero]
          · rw [hprint.text stream]
            cases stream <;> simp [LogEvent.optionText, hnamed]
      | some option =>
          rw [hnamed] at hparse
          obtain ⟨u, happly, heq⟩ := Option.map_eq_some_iff.mp hparse
          obtain ⟨-, rfl⟩ := Prod.mk.inj heq
          have hmoves := moves_applyOption happly
          refine ⟨hmoves.logLevel, hmoves.loggers, hmoves.errorContinue, hmoves.force,
            fun stream => ?_⟩
          rw [hmoves.text stream]
          cases stream <;> simp [LogEvent.optionText, hnamed]

/-- A logger whose level moves. -/
theorem moves_change {i : ι} {delta : ℤ}
    (hchange : ((s.loggers i).change delta).map (s.update i) = some t) :
    s.Moves t 0 (fun j => (s.loggers j).level + if i = j then delta else 0) none fun _ => [] := by
  obtain ⟨logger, hlogger, rfl⟩ := Option.map_eq_some_iff.mp hchange
  obtain ⟨level, hlevel, rfl⟩ := Option.map_eq_some_iff.mp hlogger
  rw [Logger.addLevel] at hlevel
  split_ifs at hlevel
  obtain rfl := Option.some.inj hlevel
  have hupdate := moves_update s i ((s.loggers i).level + delta)
  refine { hupdate with loggers := fun j => (hupdate.loggers j).trans ?_ }
  by_cases hj : i = j
  · subst hj
    simp
  · simp [hj]

/-- **One event.** -/
theorem moves_logStep {ctx : LogContext ι} {event : LogEvent ι}
    (hstep : logStep ctx s event = some t) :
    s.Moves t event.change
      (fun i => (event.given i (s.loggers i).levelDefault).getD (s.loggers i).level +
        event.shift ctx i)
      event.named (event.text ctx s.logLevel s.loggers) := by
  have hstill {shift : ℤ} (hshift : shift = 0) (i : ι) :
      (none : Option ℤ).getD (s.loggers i).level + ctx.loggers.count i * shift =
        (s.loggers i).level := by
    rw [hshift, mul_zero, add_zero]
    rfl
  cases event with
  | option opt val moment =>
      obtain ⟨⟨ok, u⟩, hparse, rfl⟩ := Option.map_eq_some_iff.mp hstep
      refine (moves_parseOptionDefaults hparse).print fun stream => ?_
      rfl
  | optionDefaults opt val moment =>
      obtain ⟨⟨ok, u⟩, hparse, rfl⟩ := Option.map_eq_some_iff.mp hstep
      exact moves_parseOptionDefaults hparse
  | log unit level line moment =>
      obtain rfl := Option.some.inj hstep
      exact (moves_print s _ .stderr).congr (hstill rfl) fun stream => rfl
  | perror unit level line moment =>
      obtain rfl := Option.some.inj hstep
      exact (moves_print s _ .stderr).congr (hstill rfl) fun stream => rfl
  | message i severity line =>
      obtain rfl := Option.some.inj hstep
      exact (moves_print s _ severity.stream).congr (hstill rfl) fun stream => rfl
  | setLevel i value =>
      obtain rfl := Option.some.inj hstep
      refine (moves_update s i value).congr (fun j => ?_) fun stream => rfl
      by_cases hj : i = j <;>
        simp [LogEvent.given, LogEvent.shift, LogEvent.change, LogEvent.named, hj]
  | more i =>
      exact (moves_change hstep).congr (fun j => rfl) fun stream => rfl
  | less i =>
      exact (moves_change hstep).congr (fun j => rfl) fun stream => rfl
  | reset i =>
      obtain rfl := Option.some.inj hstep
      refine (moves_update s i (s.loggers i).levelDefault).congr (fun j => ?_) fun stream => rfl
      by_cases hj : i = j
      · subst hj
        simp [LogEvent.given, LogEvent.shift, LogEvent.change, LogEvent.named]
      · simp [LogEvent.given, LogEvent.shift, LogEvent.change, LogEvent.named, hj]

end LogState

/-! ## Runs -/

/-- An event that sets a level does not move it. -/
theorem LogEvent.shift_of_given {ctx : LogContext ι} {i : ι} {levelDefault level : ℤ}
    {event : LogEvent ι} (hgiven : event.given i levelDefault = some level) :
    event.shift ctx i = 0 := by
  cases event with
  | setLevel j value => exact mul_zero _
  | reset j => exact mul_zero _
  | option | optionDefaults | log | perror | message | more | less => cases hgiven

omit [DecidableEq ι] in
theorem logLevelAfter_concat (level : ℤ) (events : List (LogEvent ι)) (event : LogEvent ι) :
    logLevelAfter level (events ++ [event]) = logLevelAfter level events + event.change := by
  simp [logLevelAfter, add_assoc]

/-- The level is set anew, or moved. -/
theorem loggerLevelAfter_concat (ctx : LogContext ι) (i : ι) (logger : Logger)
    (events : List (LogEvent ι)) (event : LogEvent ι) :
    loggerLevelAfter ctx i logger (events ++ [event]) =
      (event.given i logger.levelDefault).getD (loggerLevelAfter ctx i logger events) +
        event.shift ctx i := by
  cases hgiven : event.given i logger.levelDefault with
  | none =>
      have hkept : event.keeps i logger.levelDefault = true := by
        rw [LogEvent.keeps, hgiven]
        rfl
      rw [loggerLevelAfter, List.rdropWhile_concat_pos _ _ _ hkept,
        List.rtakeWhile_concat_pos _ _ _ hkept, List.map_append, List.sum_append,
        List.map_singleton, List.sum_singleton, ← add_assoc]
      rfl
  | some level =>
      have hset : ¬ event.keeps i logger.levelDefault = true := by simp [LogEvent.keeps, hgiven]
      rw [loggerLevelAfter, List.rdropWhile_concat_neg _ _ _ hset,
        List.rtakeWhile_concat_neg _ _ _ hset, List.getLast?_concat,
        LogEvent.shift_of_given hgiven]
      simp [hgiven]

/-- **What a run does.** The log is at its first level moved by the options, and each logger where
it was set last moved by what came since; an option has set its flag; and each event has printed
by the levels of its time. -/
theorem logRun_moves {ctx : LogContext ι} {s t : LogState ι} {events : List (LogEvent ι)}
    (hrun : logRun ctx s events = some t) :
    t.logLevel = logLevelAfter s.logLevel events ∧ t.loggers = loggersAfter ctx s.loggers events ∧
      t.optErrorContinue = (s.optErrorContinue ||
        events.any fun event => event.named = some .errorContinue) ∧
      t.optForce = (s.optForce || events.any fun event => event.named = some .force) ∧
      ∀ stream, t.text stream = s.text stream ++ printed ctx s events stream := by
  induction events using List.reverseRecOn generalizing t with
  | nil =>
      obtain rfl : s = t := Option.some.inj hrun
      refine ⟨by simp [logLevelAfter], funext fun i => ?_, by simp, by simp, fun stream => ?_⟩
      · simp [loggersAfter, loggerLevelAfter, Logger.setLevel]
      · exact (List.append_nil _).symm
  | append_singleton events event ih =>
      rw [logRun, List.foldlM_append, Option.bind_eq_bind, Option.bind_eq_some_iff] at hrun
      obtain ⟨u, hfirst, hlast⟩ := hrun
      have hlast : logStep ctx u event = some t := by simpa using hlast
      obtain ⟨hlevel, hloggers, hcontinue, hforce, htext⟩ := ih hfirst
      have hmoves := LogState.moves_logStep hlast
      refine ⟨?_, funext fun i => ?_, ?_, ?_, fun stream => ?_⟩
      · rw [hmoves.logLevel, hlevel, logLevelAfter_concat]
      · rw [hmoves.loggers i, hloggers, loggersAfter, loggersAfter, loggerLevelAfter_concat]
        rfl
      · rw [hmoves.errorContinue, hcontinue]
        simp [Bool.or_assoc]
      · rw [hmoves.force, hforce]
        simp [Bool.or_assoc]
      · rw [hmoves.text stream, htext stream, hlevel, hloggers, printed, printed,
          Lib.eachAfter_concat, List.append_assoc]
        rfl

/-- An option begins with a dash, as the assertion wants it. -/
def LogEvent.dashed : LogEvent ι → Bool
  | option opt _ _ | optionDefaults opt _ _ => opt.head? = some dash
  | _ => true

/-- All levels are values of an `int`. -/
def LevelsFit (logLevel : ℤ) (loggers : ι → Logger) : Prop :=
  FitsInt logLevel ∧ ∀ i, FitsInt (loggers i).level

theorem addLevel_of_fits {level change : ℤ} (hfits : FitsInt (level + change)) :
    Logger.addLevel level change = some (level + change) := if_pos hfits

namespace LogState

variable {s : LogState ι}

theorem change_of_fits {i : ι} {delta : ℤ} (hfits : FitsInt ((s.loggers i).level + delta)) :
    ((s.loggers i).change delta).map (s.update i) =
      some (s.update i ((s.loggers i).setLevel ((s.loggers i).level + delta))) := by
  rw [Logger.change, addLevel_of_fits hfits]
  rfl

/-- The loop goes through when the levels in front and behind it fit: a logger moves from the one
to the other by ones. -/
theorem exists_changeLoggers {delta : ℤ} (hdelta : delta = 1 ∨ delta = -1) {loggers : List ι}
    (hbefore : ∀ i, FitsInt (s.loggers i).level)
    (hafter : ∀ i, FitsInt ((s.loggers i).level + loggers.count i * delta)) :
    ∃ t, s.changeLoggers delta loggers = some t := by
  induction loggers generalizing s with
  | nil => exact ⟨s, rfl⟩
  | cons i loggers ih =>
      have hfirst : FitsInt ((s.loggers i).level + delta) := by
        have hlow := hbefore i
        have hhigh := hafter i
        rw [List.count_cons_self] at hhigh
        push_cast at hhigh
        obtain ⟨hlow, hlow'⟩ := hlow
        obtain ⟨hhigh, hhigh'⟩ := hhigh
        rcases hdelta with rfl | rfl
        · exact ⟨by omega, by omega⟩
        · exact ⟨by omega, by omega⟩
      have hlogger := change_of_fits hfirst
      have hmoves := moves_change hlogger
      have hbefore' (j : ι) : FitsInt ((s.update i ((s.loggers i).setLevel
          ((s.loggers i).level + delta))).loggers j).level := by
        rw [hmoves.loggers j]
        by_cases hj : i = j
        · subst hj
          simpa [Logger.setLevel] using hfirst
        · simpa [Logger.setLevel, hj] using hbefore j
      have hafter' (j : ι) : FitsInt (((s.update i ((s.loggers i).setLevel
          ((s.loggers i).level + delta))).loggers j).level + loggers.count j * delta) := by
        have hj := hafter j
        rw [hmoves.loggers j]
        by_cases hij : i = j
        · subst hij
          rw [List.count_cons_self] at hj
          simp only [Logger.setLevel, if_pos]
          convert hj using 1
          push_cast
          ring
        · rw [List.count_cons_of_ne hij] at hj
          simpa [Logger.setLevel, hij] using hj
      obtain ⟨t, ht⟩ := ih hbefore' hafter'
      refine ⟨t, ?_⟩
      rw [changeLoggers, List.foldlM_cons, hlogger]
      exact ht

/-- So does an option. -/
theorem exists_applyOption {ctx : LogContext ι} {option : DefaultOption}
    (hbefore : LevelsFit s.logLevel s.loggers) (hlevel : FitsInt (s.logLevel + option.change))
    (hafter : ∀ i, FitsInt ((s.loggers i).level + ctx.loggers.count i * option.change)) :
    ∃ t, applyOption ctx s option = some t := by
  have hmoves {delta : ℤ} (hdelta : delta = 1 ∨ delta = -1) (hlevel : FitsInt (s.logLevel + delta))
      (hafter : ∀ i, FitsInt ((s.loggers i).level + ctx.loggers.count i * delta)) :
      ∃ t, s.changeLevels ctx delta = some t := by
    rw [changeLevels, addLevel_of_fits hlevel]
    exact @exists_changeLoggers _ _ { s with logLevel := s.logLevel + delta } delta hdelta
      ctx.loggers hbefore.2 hafter
  cases option with
  | errorContinue => exact ⟨_, rfl⟩
  | force => exact ⟨_, rfl⟩
  | quiet => exact hmoves (.inr rfl) hlevel hafter
  | verbose => exact hmoves (.inl rfl) hlevel hafter
  | version => exact ⟨_, rfl⟩

theorem exists_parseOptionDefaults {ctx : LogContext ι} {opt : CString} {val : Option CString}
    {moment : LogMoment} (hdash : opt.head? = some dash) (hbefore : LevelsFit s.logLevel s.loggers)
    (hlevel : FitsInt (s.logLevel + (namedOption opt.tail).elim 0 DefaultOption.change))
    (hafter : ∀ i, FitsInt ((s.loggers i).level +
      ctx.loggers.count i * (namedOption opt.tail).elim 0 DefaultOption.change)) :
    ∃ out, parseOptionDefaults ctx opt val moment s = some out := by
  cases opt with
  | nil => cases hdash
  | cons c opt =>
      obtain rfl : c = dash := Option.some.inj hdash
      rw [List.tail_cons] at hlevel hafter
      rw [parseOptionDefaults, if_pos rfl]
      cases hnamed : namedOption opt with
      | none => exact ⟨_, rfl⟩
      | some option =>
          rw [hnamed] at hlevel hafter
          obtain ⟨t, ht⟩ := exists_applyOption hbefore hlevel hafter
          exact ⟨(true, t), by simp [ht]⟩

/-- **An event goes through** when the levels fit in front of it and behind it. -/
theorem exists_logStep {ctx : LogContext ι} {event : LogEvent ι} (hdashed : event.dashed = true)
    (hbefore : LevelsFit s.logLevel s.loggers) (hlevel : FitsInt (s.logLevel + event.change))
    (hafter : ∀ i, FitsInt ((event.given i (s.loggers i).levelDefault).getD (s.loggers i).level +
      event.shift ctx i)) :
    ∃ t, logStep ctx s event = some t := by
  cases event with
  | option opt val moment =>
      obtain ⟨out, hout⟩ := @exists_parseOptionDefaults _ _ (s.print
        ((s.loggers ctx.logger).warn (cstr "parse_option() is not implemented")) .stderr) ctx opt
        val moment (of_decide_eq_true hdashed) hbefore hlevel hafter
      exact ⟨out.2, by rw [logStep, parseOption, hout]; rfl⟩
  | optionDefaults opt val moment =>
      obtain ⟨out, hout⟩ := @exists_parseOptionDefaults _ _ s ctx opt val moment
        (of_decide_eq_true hdashed) hbefore hlevel hafter
      exact ⟨out.2, by rw [logStep, hout]; rfl⟩
  | more i => exact ⟨_, change_of_fits (by simpa [LogEvent.given, LogEvent.shift] using hafter i)⟩
  | less i => exact ⟨_, change_of_fits (by simpa [LogEvent.given, LogEvent.shift] using hafter i)⟩
  | log | perror | message | setLevel | reset => exact ⟨_, rfl⟩

end LogState

/-- **Every run goes through whose levels stay inside the integers**, and what it does is known
from its events. -/
theorem logRun_prints {ctx : LogContext ι} {s : LogState ι} {events : List (LogEvent ι)}
    (hdashed : ∀ event ∈ events, event.dashed = true)
    (hfits : ∀ before, before <+: events →
      LevelsFit (logLevelAfter s.logLevel before) (loggersAfter ctx s.loggers before)) :
    ∃ t, logRun ctx s events = some t ∧
      t.logLevel = logLevelAfter s.logLevel events ∧ t.loggers = loggersAfter ctx s.loggers events ∧
      t.optErrorContinue = (s.optErrorContinue ||
        events.any fun event => event.named = some .errorContinue) ∧
      t.optForce = (s.optForce || events.any fun event => event.named = some .force) ∧
      ∀ stream, t.text stream = s.text stream ++ printed ctx s events stream := by
  have hrun : ∃ t, logRun ctx s events = some t := by
    induction events using List.reverseRecOn with
    | nil => exact ⟨s, rfl⟩
    | append_singleton events event ih =>
        obtain ⟨u, hu⟩ := ih (fun e he => hdashed e (List.mem_append_left _ he))
          fun before hbefore => hfits before (hbefore.trans (List.prefix_append _ _))
        obtain ⟨hlevel, hloggers, -⟩ := logRun_moves hu
        obtain ⟨hafter, hafter'⟩ := hfits _ List.prefix_rfl
        have hbefore := hfits events (List.prefix_append _ _)
        rw [← hlevel, ← hloggers] at hbefore
        rw [logLevelAfter_concat, ← hlevel] at hafter
        have hlast : event.dashed = true := hdashed event (by simp)
        obtain ⟨t, ht⟩ := @LogState.exists_logStep _ _ u ctx event hlast hbefore hafter fun i => by
          have hi := hafter' i
          rw [loggersAfter, loggerLevelAfter_concat] at hi
          rw [hloggers]
          exact hi
        exact ⟨t, by rw [logRun, List.foldlM_append, ← logRun, hu]; simpa using ht⟩
  obtain ⟨t, ht⟩ := hrun
  exact ⟨t, ht, logRun_moves ht⟩

/-- A program with one logger. -/
def quietContext : LogContext Unit where
  unit := ⟨some [], ⟨false, true, false, true, false, false⟩, 2⟩
  title := cstr "title"
  logger := ()
  loggers := [()]

def quietStart : LogState Unit := ⟨1, fun _ => defineLogger (cstr "test"), false, false, [], []⟩

def quietMoment : LogMoment := ⟨.parts [] [], []⟩

/-- Three times quiet, an option that is not known, a warning and an error. -/
def quietEvents : List (LogEvent Unit) :=
  [.optionDefaults (cstr "-q") none quietMoment, .optionDefaults (cstr "--quiet") none quietMoment,
    .optionDefaults (cstr "-q") none quietMoment, .optionDefaults (cstr "--x") none quietMoment,
    .message () .warn (cstr "w"), .message () .error (cstr "e")]

/-- Only the error of the logger is printed. -/
theorem logRun_prints_quiet :
    ∃ t, logRun quietContext quietStart quietEvents = some t ∧ t.logLevel = -2 ∧
      t.stdout = [] ∧ t.stderr = cstr "\x1b[1;31m[test] ERROR: e\x1b[0m\n" := by
  have hfits : ∀ before ∈ quietEvents.inits,
      FitsInt (logLevelAfter quietStart.logLevel before) ∧
        FitsInt (loggersAfter quietContext quietStart.loggers before ()).level := by
    decide +kernel
  have hdashed : ∀ event ∈ quietEvents, event.dashed = true := by decide +kernel
  obtain ⟨t, hrun, hlevel, -, -, -, htext⟩ := @logRun_prints Unit _ quietContext quietStart
    quietEvents hdashed
    fun before hbefore => by
      obtain ⟨hlevel, hlogger⟩ := hfits before ((List.mem_inits _ _).mpr hbefore)
      exact ⟨hlevel, fun i => hlogger⟩
  exact ⟨t, hrun, hlevel.trans (by decide +kernel), (htext .stdout).trans (by decide +kernel),
    (htext .stderr).trans (by decide +kernel)⟩

end BasC
