/-
# The command line parser

`cli_parser.c`: a line is split at semicolons, and each statement loses its redirections,
becomes a command by the argument parser, has its aliases expanded, and is offered to the
handlers.

The parser's own state and whatever the callbacks can change form the world. Handlers,
argument parser, alias resolver and error callback are parameters that read and change
it. Every run leaves a trace of what is copied into a fixed buffer, parsed, stored into
`cmd_argv`, reported and offered. A store outside `cmd_argv` is undefined, so nothing is
said about what comes after it.
-/

import BasC.Cli.Redirection
import BasC.Lib.Traced
import BasC.Util.PrefixMap

namespace BasC

open CChar Lib

/-- The fixed `char` arrays of the parser. -/
inductive Buffer
  | lineCopy
  | singleStatement
  | cmdCopy
  | cmdName
  | expandedCmd
  deriving DecidableEq

/-- `sizeof` the array. -/
def Buffer.size : Buffer → ℕ
  | .lineCopy => 2048
  | .singleStatement => 1024
  | .cmdCopy => 1024
  | .cmdName => 256
  | .expandedCmd => 1024

/-- The size of each buffer; `none` is a buffer that holds any text. -/
abbrev Limits := Buffer → Option ℕ

namespace Limits

/-- The sizes in the source. -/
def source : Limits := fun buffer => some buffer.size

/-- Buffers without a size. -/
def unlimited : Limits := fun _ => none

/-- What a buffer holds after a text has been copied into it. -/
def fit (limits : Limits) (buffer : Buffer) (text : CString) : CString :=
  match limits buffer with
  | some size => bounded size text
  | none => text

/-- `strncat(dest, src, sizeof(dest) - strlen(dest) - 1)`. -/
def strncat (limits : Limits) (buffer : Buffer) (dest src : CString) : CString :=
  match limits buffer with
  | some size => dest ++ src.take (size - dest.length - 1)
  | none => dest ++ src

end Limits

theorem source_fit_eq_self {buffer : Buffer} {text : CString} (hfits : text.length < buffer.size) :
    Limits.source.fit buffer text = text :=
  bounded_eq_self hfits

/-- What the parser and its callbacks can change: the alias map, which is `none` with an
external resolver, and the state behind the context pointers. -/
structure World (σ : Type) where
  aliasMap : Option (PrefixMap CString)
  user : σ

/-- The name, the count and the vector that handlers receive. The vector shows the slots
up to `cmd_argv[cmd_argc]`. -/
structure Command where
  cmdName : CString
  cmdArgc : ℤ
  cmdArgv : List (Option CString)
  deriving DecidableEq

/-- `cli_handler_t`; a missing `can_handle` is `NULL`. -/
structure Handler (σ : Type) where
  canHandle : Option (Command → World σ → Bool × World σ)
  handle : Command → Redirection → World σ → ℤ × World σ

/-- `cli_parser_t`, without the alias map. -/
structure Parser (σ : Type) where
  handlers : List (Handler σ)
  aliasResolver : Option (CString → World σ → Option CString × World σ)
  argsParser : CString → World σ → ArgsOut × World σ
  errorCallback : Option (CString → World σ → World σ)

/-- `default_args_parser`, with the enumeration function and context of the parser. -/
def defaultArgsParser {σ : Type} (env : ArgsEnv) : CString → World σ → ArgsOut × World σ :=
  fun line world => (argsParse env line, world)

/-- No enumeration function. -/
def bareEnv : ArgsEnv := ⟨none, none⟩

/-- A parser with the built-in argument parser and nothing else. -/
def bareParser : Parser PUnit where
  handlers := []
  aliasResolver := none
  argsParser := defaultArgsParser bareEnv
  errorCallback := none

/-- A parser whose only handler takes every command. -/
def acceptingParser : Parser PUnit where
  handlers := [⟨some fun _ world => (true, world), fun _ _ world => (0, world)⟩]
  aliasResolver := none
  argsParser := defaultArgsParser bareEnv
  errorCallback := none

/-- An assignment `cmd_argv[index] = value`. -/
structure Store where
  index : ℤ
  value : Option CString
  deriving DecidableEq

/-- Which of the two calls of the argument parser is made. -/
inductive ParseSite
  | arguments
  | expandedAlias
  deriving DecidableEq

/-- What a run does that can be seen from outside or can go wrong. -/
inductive Event
  /-- The complete text is copied into the buffer. -/
  | copied (buffer : Buffer) (text : CString)
  | parsed (site : ParseSite) (text : CString) (out : ArgsOut)
  | stored (store : Store)
  | error (message : CString)
  /-- The handler with this index is asked about the command. -/
  | canHandle (handler : ℕ) (command : Command)
  | handle (handler : ℕ) (command : Command) (redir : Redirection)

/-- A piece of the parser's code. -/
abbrev Cli (σ : Type) (α : Type) := Traced (World σ) Event α

variable {σ : Type}

/-- Copy a text into a buffer, and go on with what the buffer holds. -/
def copyInto (limits : Limits) (buffer : Buffer) (text : CString) : Cli σ CString := do
  Traced.emit (.copied buffer text)
  pure (limits.fit buffer text)

theorem result_copyInto (limits : Limits) (buffer : Buffer) (text : CString) (world : World σ) :
    (copyInto limits buffer text).result world = some (limits.fit buffer text, world) := rfl

/-- `emit_error`. -/
def emitError (parser : Parser σ) (message : CString) : Cli σ PUnit := do
  Traced.emit (.error message)
  match parser.errorCallback with
  | none => pure ⟨⟩
  | some callback => Traced.update fun world => (⟨⟩, callback message world)

/-- Call the argument parser. -/
def parseArgs (parser : Parser σ) (site : ParseSite) (text : CString) : Cli σ ArgsOut := do
  let out ← Traced.update (parser.argsParser text)
  Traced.emit (.parsed site text out)
  pure out

/-- The number of slots of `cmd_argv`. -/
def cmdArgvSize : ℤ := 65

/-- Carry out assignments to `cmd_argv`, up to the first one outside it. -/
def assign : List Store → Cli σ PUnit
  | [] => pure ⟨⟩
  | store :: stores =>
      if 0 ≤ store.index ∧ store.index < cmdArgvSize then do
        Traced.emit (.stored store)
        assign stores
      else Traced.halt (.stored store)

/-- Assignments of consecutive slots. -/
def storesFrom : ℤ → List (Option CString) → List Store
  | _, [] => []
  | index, value :: values => ⟨index, value⟩ :: storesFrom (index + 1) values

/-- The first filling of `cmd_argv`: the command name, the arguments, and the `NULL`. -/
def firstStores (cmdName : CString) (parsedArgc : ℤ) (parsedArgv : List CString) : List Store :=
  ⟨0, some cmdName⟩ :: (storesFrom 1 (parsedArgv.map some) ++ [⟨parsedArgc + 1, none⟩])

/-- The filling of `cmd_argv` after an alias expansion. -/
def rebuiltStores (parsedArgc : ℤ) (parsedArgv : List CString) : List Store :=
  storesFrom 0 (parsedArgv.map some) ++ [⟨parsedArgc, none⟩]

/-- The value of a slot after the assignments. -/
def slotValue (stores : List Store) (index : ℤ) : Option CString :=
  (stores.reverse.find? fun store => store.index = index).bind Store.value

/-- The slots `0 .. cmd_argc` after the assignments. -/
def slots (stores : List Store) (cmdArgc : ℤ) : List (Option CString) :=
  (List.range (cmdArgc + 1).toNat).map fun index : ℕ => slotValue stores index

/-- The outputs before the argument parser has been called. -/
def ArgsOut.initial : ArgsOut := { ArgsOut.failure with ret := 0 }

/-- The first word of a command text, which is cut at the first white space. -/
def commandWord (cmdTrim : CString) : CString :=
  (skipSpaces cmdTrim).takeWhile fun c => !isspace c

/-- `args_str`: the text behind the first word, or `NULL` when nothing is left. -/
def argsStr (cmdTrim : CString) : Option CString :=
  match (skipSpaces cmdTrim).dropWhile fun c => !isspace c with
  | [] => none
  | _ :: text => if skipSpaces text = [] then none else some (skipSpaces text)

/-- The command under construction, and the strings of `parsed_argv`. -/
structure Expanding where
  command : Command
  parsedArgv : List CString

/-- Parse the argument text, if there is one. -/
def parseArguments (parser : Parser σ) : Option CString → Cli σ ArgsOut
  | none => pure .initial
  | some text => parseArgs parser .arguments text

/-- Fill `cmd_argv` for the first time from what the argument parser returned. -/
def fillCommand (parser : Parser σ) (cmdName : CString) (out : ArgsOut) :
    Cli σ (Option Expanding) :=
  if out.ret ≠ 0 then do
    emitError parser (cstr "Failed to parse command arguments")
    pure none
  else do
    let stores := firstStores cmdName out.argc out.strings
    assign stores
    pure (some ⟨⟨cmdName, out.argc + 1, slots stores (out.argc + 1)⟩, out.strings⟩)

/-- Parse the arguments and build the command before any alias is looked up. -/
def startCommand (parser : Parser σ) (cmdName : CString) (args : Option CString) :
    Cli σ (Option Expanding) := do
  let out ← parseArguments parser args
  fillCommand parser cmdName out

/-- The alias of a name, from the external resolver or the internal map. -/
def lookupAlias (parser : Parser σ) (name : CString) : Cli σ (Option CString) := do
  let world ← Traced.current
  match parser.aliasResolver, world.aliasMap with
  | some resolver, none => Traced.update (resolver name)
  | _, some map => pure (map.get name)
  | none, none => pure none

/-- The complete text of an expanded alias: its value, and each argument behind a blank. -/
def aliasText (value : CString) (parsedArgv : List CString) : CString :=
  value ++ parsedArgv.flatMap (blank :: ·)

/-- `expanded_cmd`. Without arguments the source copies the value by `strncpy`, which
gives the same. -/
def expandedCmd (limits : Limits) (value : CString) (parsedArgv : List CString) : CString :=
  parsedArgv.foldl
    (fun cmd arg => limits.strncat .expandedCmd (limits.strncat .expandedCmd cmd [blank]) arg)
    (limits.fit .expandedCmd value)

/-- Update the command name and fill `cmd_argv` again from what the argument parser made of
the expanded text. -/
def rebuildCommand (limits : Limits) (parser : Parser σ) (out : ArgsOut) :
    Cli σ (Option Expanding) :=
  if out.ret ≠ 0 then do
    emitError parser (cstr "Failed to parse expanded alias")
    pure none
  else
    match out.strings with
    | [] => do
        emitError parser (cstr "Expanded alias resulted in empty command")
        pure none
    | first :: rest => do
        let cmdName ← copyInto limits .cmdName first
        let stores := rebuiltStores out.argc (first :: rest)
        assign stores
        pure (some ⟨⟨cmdName, out.argc, slots stores out.argc⟩, first :: rest⟩)

/-- The body of the alias loop for a name that has a value. -/
def expandAlias (limits : Limits) (parser : Parser σ) (value : CString) (st : Expanding) :
    Cli σ (Option Expanding) := do
  Traced.emit (.copied .expandedCmd (aliasText value st.parsedArgv))
  let out ← parseArgs parser .expandedAlias (expandedCmd limits value st.parsedArgv)
  rebuildCommand limits parser out

/-- The alias loop, with the number of expansions left. -/
def expandAliases (limits : Limits) (parser : Parser σ) : ℕ → Expanding → Cli σ (Option Command)
  | 0, _ => do
      emitError parser (cstr "Too many alias expansions (possible circular alias)")
      pure none
  | left + 1, st => do
      match ← lookupAlias parser st.command.cmdName with
      | none => pure (some st.command)
      | some value => do
          match ← expandAlias limits parser value st with
          | none => pure none
          | some st => expandAliases limits parser left st

/-- `max_alias_expansions`. -/
def maxAliasExpansions : ℕ := 10

/-- A statement that is over, or a command to be offered to the handlers. -/
inductive Prepared
  | ends (ret : ℤ)
  | ready (command : Command) (redir : Redirection)
  deriving DecidableEq

/-- `execute_statement` from the redirections to the end of the alias loop. -/
def prepareCommand (limits : Limits) (parser : Parser σ) (cmdCopy : CString) :
    Cli σ Prepared := do
  let (cmdTrim, redir) := parseRedirections cmdCopy
  let cmdName ← copyInto limits .cmdName (commandWord cmdTrim)
  if cmdName = [] then pure (.ends 0)
  else do
    match ← startCommand parser cmdName (argsStr cmdTrim) with
    | none => pure (.ends (-1))
    | some st =>
        match ← expandAliases limits parser maxAliasExpansions st with
        | none => pure (.ends (-1))
        | some command => pure (.ready command redir)

/-- `execute_statement` up to the handlers. -/
def prepareStatement (limits : Limits) (parser : Parser σ) (statement : CString) :
    Cli σ Prepared :=
  if trimWhitespace statement = [] then pure (.ends 0)
  else
    match skipComments (trimWhitespace statement) with
    | none => pure (.ends 0)
    | some nonComment => do
        let cmdCopy ← copyInto limits .cmdCopy nonComment
        prepareCommand limits parser cmdCopy

/-- Ask the handlers in order, and run the first that takes the command. -/
def tryHandlers (command : Command) (redir : Redirection) :
    ℕ → List (Handler σ) → Cli σ (Option ℤ)
  | _, [] => pure none
  | index, handler :: handlers =>
      match handler.canHandle with
      | none => tryHandlers command redir (index + 1) handlers
      | some canHandle => do
          Traced.emit (.canHandle index command)
          if ← Traced.update (canHandle command) then do
            Traced.emit (.handle index command redir)
            let result ← Traced.update (handler.handle command redir)
            pure (some result)
          else tryHandlers command redir (index + 1) handlers

/-- The end of `execute_statement`. -/
def dispatch (parser : Parser σ) (command : Command) (redir : Redirection) : Cli σ ℤ := do
  match ← tryHandlers command redir 0 parser.handlers with
  | some result => pure result
  | none => do
      emitError parser (bounded 512 (cstr "Invalid command: " ++ command.cmdName))
      pure (-1)

/-- `execute_statement`. -/
def executeStatement (limits : Limits) (parser : Parser σ) (statement : CString) : Cli σ ℤ := do
  match ← prepareStatement limits parser statement with
  | .ends ret => pure ret
  | .ready command redir => dispatch parser command redir

theorem length_tail_lt_of_strchr {text before rest : CString} {c : CChar}
    (hfound : strchr text c = some (before, rest)) : rest.tail.length < text.length := by
  obtain ⟨rfl, -, after, rfl⟩ := strchr_eq_some hfound
  simp only [List.tail_cons, List.length_append, List.length_cons]
  omega

/-- The loop of `cli_parser_parse_line`, from `statement_start`. -/
def statementLoop (limits : Limits) (parser : Parser σ) (statementStart : CString) : Cli σ ℤ :=
  match _hfound : strchr statementStart semicolon with
  | some (statement, statementEnd) => do
      let singleStatement ← copyInto limits .singleStatement statement
      let result ← executeStatement limits parser singleStatement
      if result ≠ 0 then pure result
      else statementLoop limits parser statementEnd.tail
  | none => do
      let singleStatement ← copyInto limits .singleStatement statementStart
      let result ← executeStatement limits parser singleStatement
      if result ≠ 0 then pure result else pure 0
termination_by statementStart.length
decreasing_by exact length_tail_lt_of_strchr _hfound

/-- `cli_parser_parse_line`. -/
def parseLine (limits : Limits) (parser : Parser σ) (line : CString) : Cli σ ℤ :=
  match skipComments line with
  | none => pure 0
  | some nonComment => do
      let lineCopy ← copyInto limits .lineCopy nonComment
      statementLoop limits parser lineCopy

end BasC
