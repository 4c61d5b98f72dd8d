/-
# A log without its colors

A program that is compiled without `LOG_COLOR`, and whose loggers have no colors, writes to its
streams what a terminal shows of those of the program with colors. The colors of one line end in
it, so this holds line by line, and then over every run.
-/

import BasC.Log.Verbosity

namespace BasC

open CChar

variable {ι : Type}

/-- Without `LOG_COLOR`. -/
def LogOptions.uncolored (option : LogOptions) : LogOptions := { option with color := false }

def LogUnit.uncolored (unit : LogUnit) : LogUnit := { unit with option := unit.option.uncolored }

/-- A logger without colors. -/
def Logger.uncolored (logger : Logger) : Logger :=
  { logger with
    colorError := some []
    colorWarn := some []
    colorMesg := some []
    colorInfo := some []
    colorLog := some []
    colorDebug := some []
    colorTrace := some []
    colorReset := some [] }

def LogContext.uncolored (ctx : LogContext ι) : LogContext ι :=
  { ctx with unit := ctx.unit.uncolored }

/-- The state with what is shown of its streams. -/
def LogState.uncolored (s : LogState ι) : LogState ι :=
  { s with
    loggers := fun i => (s.loggers i).uncolored
    stdout := shown s.stdout
    stderr := shown s.stderr }

def LogEvent.uncolored : LogEvent ι → LogEvent ι
  | .log unit level line moment => .log unit.uncolored level line moment
  | .perror unit level line moment => .perror unit.uncolored level line moment
  | event => event

/-- The texts of a moment have no escape character. -/
structure LogMoment.Plain (moment : LogMoment) : Prop where
  time : ∀ option, escape ∉ moment.time.text option
  error : escape ∉ moment.error

/-- Nor has the name of the source file. -/
def LogUnit.Plain (unit : LogUnit) : Prop := escape ∉ unit.ident.getD []

structure LogContext.Plain (ctx : LogContext ι) : Prop where
  unit : ctx.unit.Plain
  title : escape ∉ ctx.title

/-- The header of a logger has none, and its colors are colors. -/
structure Logger.Plain (logger : Logger) : Prop where
  header : escape ∉ stringArg logger.header
  color : ∀ severity : Severity, IsColor (stringArg (severity.color logger))
  reset : IsColor (stringArg logger.colorReset)

/-- Nor has what an event prints. -/
def LogEvent.Plain : LogEvent ι → Prop
  | .option opt val moment | .optionDefaults opt val moment =>
      escape ∉ opt ∧ escape ∉ stringArg val ∧ moment.Plain
  | .log unit _ line moment | .perror unit _ line moment =>
      unit.Plain ∧ escape ∉ line ∧ moment.Plain
  | .message _ _ line => escape ∉ line
  | _ => True

/-- The streams do not end inside a color, and the loggers are plain. -/
structure LogState.Plain (s : LogState ι) : Prop where
  loggers : ∀ i, (s.loggers i).Plain
  streams : ∀ stream, endsInside false (s.text stream) = false

/-- `CSI`, attributes and `SGR` are a color. -/
theorem isColor_csi {attributes : CString} (hattributes : lowerM ∉ attributes) :
    IsColor (csi attributes) := by
  have hinside : shownFrom true (attributes ++ [lowerM]) = [] ∧
      endsInside true (attributes ++ [lowerM]) = false := by
    induction attributes with
    | nil => exact ⟨rfl, rfl⟩
    | cons c attributes ih =>
        rw [List.mem_cons, not_or] at hattributes
        have hc : decide (c ≠ lowerM) = true := decide_eq_true (Ne.symm hattributes.1)
        rw [List.cons_append, shownFrom, endsInside, hc]
        exact ih hattributes.2
  have hsplit : csi attributes = escape :: openBracket :: (attributes ++ [lowerM]) := by
    have hfront : cstr "\x1b[" = [escape, openBracket] := by decide
    have hback : cstr "m" = [lowerM] := by decide
    rw [csi, hfront, hback]
    rfl
  rw [hsplit]
  exact hinside

/-- A part that is printed or not. -/
theorem ShownAs.ite {text plain : CString} (htext : ShownAs text plain) (p : Prop) [Decidable p] :
    ShownAs (if p then text else []) (if p then plain else []) := by
  split_ifs
  · exact htext
  · exact ⟨rfl, rfl⟩

theorem shownAs_colored (option : LogOptions) {attributes : CString}
    (hattributes : lowerM ∉ attributes) :
    ShownAs (option.colored attributes) (option.uncolored.colored attributes) := by
  have hnone : option.uncolored.colored attributes = [] := rfl
  rw [hnone, LogOptions.colored]
  split_ifs
  · exact isColor_csi hattributes
  · exact ⟨rfl, rfl⟩

/-- No attribute of a level ends its sequence, and no name has an escape character. -/
theorem levelStyle_plain (level : ℤ) :
    escape ∉ (levelStyle level).1 ∧ ∀ attributes ∈ (levelStyle level).2, lowerM ∉ attributes := by
  rw [levelStyle]
  split_ifs <;> decide

/-- **A line of the log** is shown as the line without colors. -/
theorem shownAs_vlogX {ident : Option CString} (option : LogOptions) (level : ℤ) {message : CString}
    {moment : LogMoment} (hident : escape ∉ ident.getD []) (hmessage : escape ∉ message)
    (hmoment : moment.Plain) :
    ShownAs (vlogX ident option level message moment)
      (vlogX ident option.uncolored level message moment) := by
  have hblank : ShownAs [blank] [blank] := shownAs_self (by decide)
  have hreset : ShownAs (option.colored (cstr ";0")) (option.uncolored.colored (cstr ";0")) :=
    shownAs_colored option (by decide)
  have htime := ((shownAs_colored option (by decide : lowerM ∉ cstr ";1;30")).append
    (shownAs_self (hmoment.time option))).append hreset
  have hbracket : ShownAs ([openBracket] ++ ident.getD [] ++ [closeBracket])
      ([openBracket] ++ ident.getD [] ++ [closeBracket]) := by
    have hopen : escape ≠ openBracket := by decide
    have hclose : escape ≠ closeBracket := by decide
    exact shownAs_self (by simp [hident, hopen, hclose])
  have hname := (hblank.ite option.dated).append (((shownAs_colored option
    (by decide : lowerM ∉ cstr ";1;37;43")).append hbracket).append hreset)
  obtain ⟨hword, hattributes⟩ := levelStyle_plain level
  have hstyle : ShownAs ((levelStyle level).2.elim [] option.colored)
      ((levelStyle level).2.elim [] option.uncolored.colored) := by
    cases hsecond : (levelStyle level).2 with
    | none => exact ⟨rfl, rfl⟩
    | some attributes => exact shownAs_colored option (hattributes attributes hsecond)
  have hlevel : ShownAs ((levelStyle level).1 ++ [colon]) ((levelStyle level).1 ++ [colon]) := by
    have hcolon : escape ≠ colon := by decide
    exact shownAs_self (by simp [hword, hcolon])
  have herror := hblank.append (((shownAs_colored option
    (by decide : lowerM ∉ cstr ";4;31")).append (shownAs_self hmoment.error)).append hreset)
  have hend : ShownAs [if option.cr then carriageReturn else newline]
      [if option.cr then carriageReturn else newline] := by
    refine shownAs_self ?_
    split_ifs <;> decide
  exact (((((((((htime.ite _).append (hname.ite _)).append (hblank.ite _)).append hstyle).append
    (hlevel.ite _)).append (hblank.ite _)).append (shownAs_self hmessage)).append hreset).append
    (herror.ite _)).append hend

theorem shownAs_logIfLevel {unit : LogUnit} (hunit : unit.Plain) (logLevel level : ℤ)
    {message : CString} {moment : LogMoment} (hmessage : escape ∉ message)
    (hmoment : moment.Plain) :
    ShownAs (unit.logIfLevel logLevel level message moment)
      (unit.uncolored.logIfLevel logLevel level message moment) :=
  (shownAs_vlogX unit.option level hunit hmessage hmoment).ite _

namespace Logger

variable {logger : Logger} (hlogger : logger.Plain)

include hlogger

theorem shownAs_line (severity : Severity) {message : CString} (hmessage : escape ∉ message) :
    ShownAs (logger.line severity message) (logger.uncolored.line severity message) := by
  have hword : escape ∉ severity.word := by cases severity <;> decide
  have hbody : ShownAs (stringArg logger.header ++ severity.word ++ message)
      (stringArg logger.header ++ severity.word ++ message) :=
    shownAs_self (by simp [hlogger.header, hword, hmessage])
  have hcolor : stringArg (severity.color logger.uncolored) = [] := by cases severity <;> rfl
  have hcolored : ShownAs (stringArg (severity.color logger))
      (stringArg (severity.color logger.uncolored)) := by
    rw [hcolor]
    exact hlogger.color severity
  exact ((hcolored.append hbody).append hlogger.reset).append (shownAs_self (by decide))

/-- **A message of a logger** is shown as the message without colors. -/
theorem Plain.shownAs_print (severity : Severity) {message : CString}
    (hmessage : escape ∉ message) :
    ShownAs (logger.print severity message) (logger.uncolored.print severity message) := by
  have hline (severity : Severity) := shownAs_line hlogger severity hmessage
  have hleveled (severity : Severity) :
      ShownAs (logger.leveled severity message) (logger.uncolored.leveled severity message) :=
    (hline severity).ite _
  cases severity with
  | error => exact hline .error
  | warn => exact hleveled .warn
  | mesg => exact hleveled .mesg
  | info => exact hleveled .info
  | log => exact hleveled .log
  | debug => exact hleveled .debug
  | trace => exact hleveled .trace

omit hlogger in
/-- The loggers that the libraries define. -/
theorem plain_defineLogger {name : CString} (hname : escape ∉ name) :
    (defineLogger name).Plain where
  header := by
    have hopen : escape ≠ openBracket := by decide
    have hclose : escape ≠ closeBracket := by decide
    simp [defineLogger, stringArg, hname, hopen, hclose]
  color severity := by
    have hsame : severity.color (defineLogger name) = severity.color (defineLogger []) := by
      cases severity <;> rfl
    rw [hsame]
    cases severity <;> exact ⟨by decide +kernel, by decide +kernel⟩
  reset := by
    have hsame : (defineLogger name).colorReset = (defineLogger []).colorReset := rfl
    rw [hsame]
    exact ⟨by decide +kernel, by decide +kernel⟩

/-- The level does not color. -/
theorem Plain.setLevel (level : ℤ) : (logger.setLevel level).Plain where
  header := hlogger.header
  color severity := by
    have hcolor := hlogger.color severity
    cases severity <;> exact hcolor
  reset := hlogger.reset

end Logger

/-! ## One event -/

namespace LogState

variable {s t : LogState ι}

/-- Something more is printed. -/
theorem shows_print (hs : s.Plain) {text plain : CString} (htext : ShownAs text plain)
    (stream : OutStream) :
    (s.print text stream).uncolored = s.uncolored.print plain stream ∧
      (s.print text stream).Plain := by
  have happend (stream : OutStream) :
      shown (s.text stream ++ text) = shown (s.text stream) ++ plain ∧
        endsInside false (s.text stream ++ text) = false := by
    rw [shown, shownFrom_append, endsInside_append, hs.streams stream]
    exact ⟨congrArg (shown (s.text stream) ++ ·) htext.1, htext.2⟩
  constructor
  · cases stream with
    | stdout =>
        have hstdout : shown (s.stdout ++ text) = shown s.stdout ++ plain := (happend .stdout).1
        simp only [LogState.uncolored, LogState.print, hstdout]
    | stderr =>
        have hstderr : shown (s.stderr ++ text) = shown s.stderr ++ plain := (happend .stderr).1
        simp only [LogState.uncolored, LogState.print, hstderr]
  · refine ⟨fun i => ?_, fun stream' => ?_⟩
    · rw [(moves_print s text stream).loggers i]
      exact hs.loggers i
    · rw [text_print]
      split_ifs with heq
      · exact (happend stream').2
      · rw [List.append_nil]
        exact hs.streams stream'

variable [DecidableEq ι]

/-- A logger gets another level. -/
theorem shows_update (hs : s.Plain) (i : ι) (level : ℤ) :
    (s.update i ((s.loggers i).setLevel level)).uncolored =
        s.uncolored.update i ((s.uncolored.loggers i).setLevel level) ∧
      (s.update i ((s.loggers i).setLevel level)).Plain := by
  have hmoves := moves_update s i level
  constructor
  · have hloggers := Function.comp_update Logger.uncolored s.loggers i
      ((s.loggers i).setLevel level)
    exact congrArg (fun loggers => { s.uncolored with loggers := loggers }) hloggers
  · refine ⟨fun j => ?_, fun stream => ?_⟩
    · rw [hmoves.loggers j]
      exact (hs.loggers j).setLevel _
    · rw [hmoves.text stream, List.append_nil]
      exact hs.streams stream

/-- A logger is moved. -/
theorem shows_change (hs : s.Plain) {i : ι} {delta : ℤ}
    (hchange : ((s.loggers i).change delta).map (s.update i) = some t) :
    ((s.uncolored.loggers i).change delta).map (s.uncolored.update i) = some t.uncolored ∧
      t.Plain := by
  obtain ⟨logger, hlogger, rfl⟩ := Option.map_eq_some_iff.mp hchange
  obtain ⟨level, hlevel, rfl⟩ := Option.map_eq_some_iff.mp hlogger
  obtain ⟨heq, hplain⟩ := shows_update hs i level
  have hlevel' : Logger.addLevel (s.uncolored.loggers i).level delta = some level := hlevel
  rw [Logger.change, hlevel', heq]
  exact ⟨rfl, hplain⟩

theorem shows_changeLoggers (hs : s.Plain) {delta : ℤ} {loggers : List ι}
    (hchange : s.changeLoggers delta loggers = some t) :
    s.uncolored.changeLoggers delta loggers = some t.uncolored ∧ t.Plain := by
  induction loggers generalizing s with
  | nil =>
      obtain rfl : s = t := Option.some.inj hchange
      exact ⟨rfl, hs⟩
  | cons i loggers ih =>
      rw [changeLoggers, List.foldlM_cons, Option.bind_eq_bind, Option.bind_eq_some_iff] at hchange
      obtain ⟨u, hfirst, hrest⟩ := hchange
      obtain ⟨hfirst', hu⟩ := shows_change hs hfirst
      obtain ⟨hrest', ht⟩ := ih hu hrest
      rw [changeLoggers, List.foldlM_cons, hfirst']
      exact ⟨hrest', ht⟩

variable {ctx : LogContext ι}

theorem shows_changeLevels (hs : s.Plain) {delta : ℤ}
    (hchange : s.changeLevels ctx delta = some t) :
    s.uncolored.changeLevels ctx.uncolored delta = some t.uncolored ∧ t.Plain := by
  obtain ⟨level, hlevel, hloggers⟩ := Option.bind_eq_some_iff.mp hchange
  have hlevel' : Logger.addLevel s.uncolored.logLevel delta = some level := hlevel
  rw [changeLevels, hlevel']
  have hs' : LogState.Plain { s with logLevel := level } := ⟨hs.loggers, hs.streams⟩
  exact shows_changeLoggers hs' hloggers

theorem shows_applyOption (hctx : ctx.Plain) (hs : s.Plain) {option : DefaultOption}
    (happly : applyOption ctx s option = some t) :
    applyOption ctx.uncolored s.uncolored option = some t.uncolored ∧ t.Plain := by
  cases option with
  | errorContinue =>
      obtain rfl := Option.some.inj happly
      exact ⟨rfl, hs.loggers, hs.streams⟩
  | force =>
      obtain rfl := Option.some.inj happly
      exact ⟨rfl, hs.loggers, hs.streams⟩
  | quiet => exact shows_changeLevels hs happly
  | verbose => exact shows_changeLevels hs happly
  | version =>
      obtain rfl := Option.some.inj happly
      have hnewline : escape ≠ newline := by decide
      have hwritten : escape ∉ cstr "Written by Lenik, (at) 99jsj.com" := by decide +kernel
      have htext : escape ∉ versionText ctx.title := by
        simp [versionText, hctx.title, hnewline, hwritten]
      obtain ⟨heq, hplain⟩ := shows_print hs (shownAs_self htext) .stdout
      exact ⟨congrArg some heq.symm, hplain⟩

theorem shows_parseOptionDefaults (hctx : ctx.Plain) (hs : s.Plain) {opt : CString}
    {val : Option CString} {moment : LogMoment} (hopt : escape ∉ opt)
    (hval : escape ∉ stringArg val) (hmoment : moment.Plain) {ok : Bool}
    (hparse : parseOptionDefaults ctx opt val moment s = some (ok, t)) :
    parseOptionDefaults ctx.uncolored opt val moment s.uncolored = some (ok, t.uncolored) ∧
      t.Plain := by
  cases opt with
  | nil => cases hparse
  | cons c opt =>
      rw [parseOptionDefaults] at hparse ⊢
      split_ifs at hparse ⊢ with hc
      cases hnamed : namedOption opt with
      | none =>
          rw [hnamed] at hparse
          obtain ⟨rfl, rfl⟩ := Prod.mk.inj (Option.some.inj hparse)
          have hname : escape ∉ opt.dropWhile (· = dash) := fun hmem =>
            hopt (List.mem_cons_of_mem c ((List.dropWhile_suffix _).subset hmem))
          have hwords : escape ∉ cstr "Bad option: " := by decide
          have hblank : escape ≠ blank := by decide
          have hmessage : escape ∉ badOption (opt.dropWhile (· = dash)) val := by
            simp only [badOption, List.mem_append, List.mem_singleton]
            tauto
          obtain ⟨heq, hplain⟩ := shows_print hs
            (shownAs_logIfLevel hctx.unit s.logLevel (-1) hmessage hmoment) .stderr
          exact ⟨congrArg (fun u => some (false, u)) heq.symm, hplain⟩
      | some option =>
          rw [hnamed] at hparse
          obtain ⟨u, happly, heq⟩ := Option.map_eq_some_iff.mp hparse
          obtain ⟨rfl, rfl⟩ := Prod.mk.inj heq
          obtain ⟨happly', hplain⟩ := shows_applyOption hctx hs happly
          exact ⟨by simp only [happly', Option.map_some], hplain⟩

/-- **One event**, with colors and without. -/
theorem shows_logStep (hctx : ctx.Plain) (hs : s.Plain) {event : LogEvent ι} (hevent : event.Plain)
    (hstep : logStep ctx s event = some t) :
    logStep ctx.uncolored s.uncolored event.uncolored = some t.uncolored ∧ t.Plain := by
  cases event with
  | option opt val moment =>
      obtain ⟨⟨ok, u⟩, hparse, rfl⟩ := Option.map_eq_some_iff.mp hstep
      obtain ⟨hopt, hval, hmoment⟩ := hevent
      obtain ⟨heq, hprinted⟩ := shows_print hs ((hs.loggers ctx.logger).shownAs_print .warn
        (by decide +kernel : escape ∉ cstr "parse_option() is not implemented")) .stderr
      obtain ⟨hparse', hplain⟩ := shows_parseOptionDefaults hctx hprinted hopt hval hmoment hparse
      rw [heq] at hparse'
      exact ⟨congrArg (Option.map Prod.snd) hparse', hplain⟩
  | optionDefaults opt val moment =>
      obtain ⟨⟨ok, u⟩, hparse, rfl⟩ := Option.map_eq_some_iff.mp hstep
      obtain ⟨hopt, hval, hmoment⟩ := hevent
      obtain ⟨hparse', hplain⟩ := shows_parseOptionDefaults hctx hs hopt hval hmoment hparse
      exact ⟨congrArg (Option.map Prod.snd) hparse', hplain⟩
  | log unit level line moment =>
      obtain rfl := Option.some.inj hstep
      obtain ⟨hunit, hline, hmoment⟩ := hevent
      obtain ⟨heq, hplain⟩ := shows_print hs
        (shownAs_logIfLevel hunit s.logLevel level hline hmoment) .stderr
      exact ⟨congrArg some heq.symm, hplain⟩
  | perror unit level line moment =>
      obtain rfl := Option.some.inj hstep
      obtain ⟨hunit, hline, hmoment⟩ := hevent
      obtain ⟨heq, hplain⟩ := shows_print hs
        (@shownAs_logIfLevel { unit with option.strerror := true } hunit s.logLevel level _ _ hline
          hmoment) .stderr
      exact ⟨congrArg some heq.symm, hplain⟩
  | message i severity line =>
      obtain rfl := Option.some.inj hstep
      obtain ⟨heq, hplain⟩ := shows_print hs ((hs.loggers i).shownAs_print severity hevent)
        severity.stream
      exact ⟨congrArg some heq.symm, hplain⟩
  | setLevel i value =>
      obtain rfl := Option.some.inj hstep
      obtain ⟨heq, hplain⟩ := shows_update hs i value
      exact ⟨congrArg some heq.symm, hplain⟩
  | more i => exact shows_change hs hstep
  | less i => exact shows_change hs hstep
  | reset i =>
      obtain rfl := Option.some.inj hstep
      obtain ⟨heq, hplain⟩ := shows_update hs i (s.loggers i).levelDefault
      exact ⟨congrArg some heq.symm, hplain⟩

end LogState

variable [DecidableEq ι]

/-- **Colors change only what is colored**: over every run, a terminal shows of the streams of a
program with colors what the program without colors writes, and all levels and flags agree. -/
theorem shown_logRun {ctx : LogContext ι} {s t : LogState ι} {events : List (LogEvent ι)}
    (hctx : ctx.Plain) (hs : s.Plain) (hevents : ∀ event ∈ events, event.Plain)
    (hrun : logRun ctx s events = some t) :
    logRun ctx.uncolored s.uncolored (events.map LogEvent.uncolored) = some t.uncolored := by
  induction events generalizing s with
  | nil =>
      obtain rfl : s = t := Option.some.inj hrun
      rfl
  | cons event events ih =>
      rw [logRun, List.foldlM_cons, Option.bind_eq_bind, Option.bind_eq_some_iff] at hrun
      obtain ⟨u, hfirst, hrest⟩ := hrun
      obtain ⟨hevent, hevents⟩ := List.forall_mem_cons.mp hevents
      obtain ⟨hfirst', hu⟩ := LogState.shows_logStep hctx hs hevent hfirst
      rw [List.map_cons, logRun, List.foldlM_cons, hfirst']
      exact ih hu hevents hrest

/-- The run with an unknown option and an error, where the error is printed in red. -/
theorem shown_logRun_quiet :
    ∃ t, logRun quietContext quietStart quietEvents = some t ∧
      logRun quietContext.uncolored quietStart.uncolored (quietEvents.map LogEvent.uncolored) =
        some t.uncolored := by
  obtain ⟨t, hrun⟩ := Option.isSome_iff_exists.mp
    (by decide +kernel : (logRun quietContext quietStart quietEvents).isSome = true)
  have hctx : quietContext.Plain := ⟨List.not_mem_nil, by decide⟩
  have hstart : quietStart.Plain :=
    ⟨fun _ => Logger.plain_defineLogger (by decide), fun stream => by cases stream <;> rfl⟩
  have hmoment : quietMoment.Plain := by
    refine ⟨fun option => ?_, List.not_mem_nil⟩
    rw [quietMoment, LogTime.text]
    split_ifs <;> decide
  have hnull : escape ∉ stringArg none := by decide
  have hevents : ∀ event ∈ quietEvents, event.Plain := by
    simp only [quietEvents, List.forall_mem_cons, LogEvent.Plain]
    exact ⟨⟨by decide, hnull, hmoment⟩, ⟨by decide, hnull, hmoment⟩, ⟨by decide, hnull, hmoment⟩,
      ⟨by decide, hnull, hmoment⟩, by decide, by decide, List.forall_mem_nil _⟩
  exact ⟨t, hrun, shown_logRun hctx hstart hevents hrun⟩

end BasC
