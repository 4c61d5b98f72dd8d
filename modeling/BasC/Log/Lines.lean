/-
# Lines of the logs

There are two logs. A source file is compiled with options for the one, and the macros write its
lines at a level below two limits: that of the file and that of the program. The other has a
logger for each library, with a level of its own and its own colors.
-/

import BasC.Base.Colors
import BasC.Base.Numerals

namespace BasC

open CChar

/-- `%s` of `printf`, which takes a null pointer as well. -/
def stringArg (text : Option CString) : CString := text.getD (cstr "(null)")

/-- `CSI`, attributes and `SGR`. -/
def csi (attributes : CString) : CString := cstr "\x1b[" ++ attributes ++ cstr "m"

/-- The bits of `option`. -/
structure LogOptions where
  strerror : Bool
  color : Bool
  cr : Bool
  levname : Bool
  date : Bool
  time : Bool
  deriving DecidableEq

/-- What `localtime_r` and `strftime` make of the time. -/
inductive LogTime
  | failed (error : CString)
  | parts (date time : CString)

/-- What a line takes from outside: the time, and the text of `errno`. -/
structure LogMoment where
  time : LogTime
  error : CString

namespace LogOptions

variable (option : LogOptions)

/-- `COLOR fputs(…)`. -/
def colored (attributes : CString) : CString := if option.color then csi attributes else []

/-- `option & LOG_DATETIME`. -/
def dated : Bool := option.date || option.time

end LogOptions

/-- The date and the time that are printed. -/
def LogTime.text (option : LogOptions) : LogTime → CString
  | .failed error => cstr "localtime: " ++ error
  | .parts date time =>
      (if option.date then date else []) ++
        (if option.time then (if option.date then [blank] else []) ++ time else [])

/-- The name of a level, and the attributes of its color if it has one. -/
def levelStyle (level : ℤ) : CString × Option CString :=
  if -4 ≤ level ∧ level ≤ -2 then (cstr "FATAL", some (cstr ";5;1;37;41"))
  else if level = -1 then (cstr "ERROR", some (cstr ";1;31"))
  else if level = 0 then (cstr "WARN", some (cstr ";1;35"))
  else if level = 1 then (cstr "NOTICE", some (cstr ";1"))
  else if level = 2 then (cstr "INFO", some (cstr ";1;30"))
  else if level = 3 then (cstr "DEBUG", some (cstr ";37;2"))
  else if level = 4 then (cstr "TRACE", some (cstr ";37;2"))
  else if level < -3 then (cstr "FATAL", none)
  else if 3 < level then (cstr "DEBUG", none)
  else (cstr "_Level", none)

/-- `_vlog_x`, with the text that the format makes. A part has a blank in front of it when
something has been printed: the `dirty` of the code. -/
def vlogX (ident : Option CString) (option : LogOptions) (level : ℤ) (message : CString)
    (moment : LogMoment) : CString :=
  let named := !(ident.getD []).isEmpty
  (if option.dated then
    option.colored (cstr ";1;30") ++ moment.time.text option ++ option.colored (cstr ";0")
  else []) ++
  (if named then
    (if option.dated then [blank] else []) ++ (option.colored (cstr ";1;37;43") ++
      ([openBracket] ++ ident.getD [] ++ [closeBracket]) ++ option.colored (cstr ";0"))
  else []) ++
  (if option.dated || named then [blank] else []) ++
  (levelStyle level).2.elim [] option.colored ++
  (if option.levname then (levelStyle level).1 ++ [colon] else []) ++
  (if option.dated || named || option.levname then [blank] else []) ++
  message ++ option.colored (cstr ";0") ++
  (if option.strerror then
    [blank] ++ (option.colored (cstr ";4;31") ++ moment.error ++ option.colored (cstr ";0"))
  else []) ++
  [if option.cr then carriageReturn else newline]

/-- What a source file is compiled with: `LOG_IDENT`, `LOG_OPTION` and `LOG_LEVEL`. -/
structure LogUnit where
  ident : Option CString
  option : LogOptions
  level : ℤ

namespace LogUnit

variable (unit : LogUnit)

/-- `LOG_IF_LEVEL`, with the value of `log_level`: what is printed. -/
def logIfLevel (logLevel level : ℤ) (message : CString) (moment : LogMoment) : CString :=
  if level ≤ unit.level ∧ level ≤ logLevel then vlogX unit.ident unit.option level message moment
  else []

/-- `LOG_PERROR_IF_LEVEL`. -/
def logPerrorIfLevel (logLevel level : ℤ) (message : CString) (moment : LogMoment) : CString :=
  { unit with option.strerror := true }.logIfLevel logLevel level message moment

/-- `log_err`. -/
def logErr (logLevel : ℤ) (message : CString) (moment : LogMoment) : CString :=
  unit.logIfLevel logLevel (-1) message moment

end LogUnit

/-- The standard streams that are written to. -/
inductive OutStream
  | stdout
  | stderr
  deriving DecidableEq

/-- `logger_t`. -/
structure Logger where
  level : ℤ
  levelDefault : ℤ
  header : Option CString
  colorError : Option CString
  colorWarn : Option CString
  colorMesg : Option CString
  colorInfo : Option CString
  colorLog : Option CString
  colorDebug : Option CString
  colorTrace : Option CString
  colorReset : Option CString
  deriving DecidableEq

/-- `define_logger` with a name. -/
def defineLogger (name : CString) : Logger where
  level := 1
  levelDefault := 1
  header := some ([openBracket] ++ name ++ [closeBracket])
  colorError := some (cstr "\x1b[1;31m")
  colorWarn := some (cstr "\x1b[1;33m")
  colorMesg := some (cstr "\x1b[0m")
  colorInfo := some (cstr "\x1b[1;32m")
  colorLog := some (cstr "\x1b[1;37m")
  colorDebug := some (cstr "\x1b[1;90m")
  colorTrace := some (cstr "\x1b[1;90m")
  colorReset := some (cstr "\x1b[0m")

/-- A `logger_t` without an initializer, as `dbg_logger` is. -/
def zeroLogger : Logger :=
  ⟨0, 0, none, none, none, none, none, none, none, none, none⟩

/-- The kinds of messages. -/
inductive Severity
  | error
  | warn
  | mesg
  | info
  | log
  | debug
  | trace
  deriving DecidableEq

namespace Severity

/-- `LOG_LEVEL_ERROR` and the others. -/
def level : Severity → ℤ
  | error => -1
  | warn => 0
  | mesg => 1
  | info => 2
  | log => 3
  | debug => 4
  | trace => 5

/-- What stands between the header and the message. -/
def word : Severity → CString
  | error => cstr " ERROR: "
  | warn => cstr " WARN: "
  | mesg => cstr " "
  | info => cstr " INFO: "
  | log => cstr " LOG: "
  | debug => cstr " DEBUG: "
  | trace => cstr " TRACE: "

def stream : Severity → OutStream
  | error | warn => .stderr
  | mesg | info | log | debug | trace => .stdout

def color (logger : Logger) : Severity → Option CString
  | error => logger.colorError
  | warn => logger.colorWarn
  | mesg => logger.colorMesg
  | info => logger.colorInfo
  | log => logger.colorLog
  | debug => logger.colorDebug
  | trace => logger.colorTrace

end Severity

namespace Logger

variable (logger : Logger)

/-- A line of the logger. -/
def line (severity : Severity) (message : CString) : CString :=
  stringArg (severity.color logger) ++ (stringArg logger.header ++ severity.word ++ message) ++
    stringArg logger.colorReset ++ [newline]

/-- `logger_error` and `logger_error_fmt`: an error is printed at every level. -/
def error (message : CString) : CString := logger.line .error message

/-- A message that is printed from the level of its kind on. -/
def leveled (severity : Severity) (message : CString) : CString :=
  if severity.level ≤ logger.level then logger.line severity message else []

/-- `logger_warn`. -/
def warn (message : CString) : CString := logger.leveled .warn message
/-- `logger_mesg`. -/
def mesg (message : CString) : CString := logger.leveled .mesg message
/-- `logger_info`. -/
def info (message : CString) : CString := logger.leveled .info message
/-- `logger_log`. -/
def log (message : CString) : CString := logger.leveled .log message
/-- `logger_debug`. -/
def debug (message : CString) : CString := logger.leveled .debug message
/-- `logger_trace`. -/
def trace (message : CString) : CString := logger.leveled .trace message

/-- The function for a kind of message. -/
def print : Severity → CString → CString
  | .error => logger.error
  | .warn => logger.warn
  | .mesg => logger.mesg
  | .info => logger.info
  | .log => logger.log
  | .debug => logger.debug
  | .trace => logger.trace

/-- The level, when an `int` can hold it. -/
def addLevel (level change : ℤ) : Option ℤ :=
  if FitsInt (level + change) then some (level + change) else none

/-- `logger_set_level`. -/
def setLevel (value : ℤ) : Logger := { logger with level := value }

/-- A level that is moved. -/
def change (delta : ℤ) : Option Logger := (addLevel logger.level delta).map logger.setLevel

/-- `logger_more`. -/
def more : Option Logger := logger.change 1

/-- `logger_less`. -/
def less : Option Logger := logger.change (-1)

/-- `logger_reset`. -/
def reset : Logger := logger.setLevel logger.levelDefault

end Logger

end BasC
