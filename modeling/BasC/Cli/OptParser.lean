/-
# The option parser

`opt_parser.c`: options and their arguments, one for each call of `opt_parse_long`. The
parser's state is a cursor: the element of `argv` that is read next and, in a cluster of
short options, the position behind the letters that are done with.

The elements of `argv` are pointers, and the strings they point at are in memory, since a
call writes a NUL over the `=` of a long option while it looks up the name. One step is
one pass through the body of `opt_parse_long`; it comes to a return or to the call of the
function by itself.
-/

import BasC.Base.Memory

namespace BasC

open CChar

/-- The value of a `char`, which is signed, as an `int`. -/
def CChar.toInt (c : CChar) : ℤ := if c.toNat < 128 then c.toNat else c.toNat - 256

/-- `struct option`. `*flag` is the `int` with this address. -/
structure LongOption where
  name : CString
  hasArg : ℤ
  flag : Option ℕ
  val : ℤ

/-- `opt_parser_t`. The two positions are counts of elements and of letters, which fit an `int` as
long as no element has `2 ^ 31` bytes. -/
structure OptParser where
  optind : ℕ
  optopt : ℤ
  opterr : ℤ
  optarg : Option CPointer
  shortOptPos : ℕ
  currentArg : Option CPointer

/-- What every call gets: `argv` with its `argc` elements, and the options. -/
structure CommandLine where
  argv : List (Option CPointer)
  optstring : Option CString
  longopts : Option (List LongOption)

/-- What a call comes to. The report is the value of an option or `'?'`; without one the
call returns `-1`. -/
structure OptCall where
  report : Option ℤ
  parser : OptParser
  memory : Memory
  /-- What is stored in `*longindex`, if the caller wants it. -/
  longindex : Option ℕ
  /-- The address and the value of `*opt->flag = opt->val`. -/
  flagStore : Option (ℕ × ℤ)
  /-- The text printed to `stderr`. -/
  message : Option CString

/-- The `int` returned. -/
def OptCall.ret (call : OptCall) : ℤ := call.report.getD (-1)

/-- `opt_parser_init`. -/
def OptParser.init : OptParser where
  optind := 1
  optopt := 0
  opterr := 1
  optarg := none
  shortOptPos := 0
  currentArg := none

namespace CommandLine

/-- `argv[i]`. -/
def element (line : CommandLine) (i : ℕ) : Option CPointer := line.argv[i]?.join

/-- `argv[0]` as it is printed. -/
def programName (line : CommandLine) (memory : Memory) : CString :=
  match line.element 0 with
  | some program => memory.read program
  | none => cstr "(null)"

end CommandLine

/-- The loop of `find_long_option`: the index of the option, and the option. -/
def findLongOptionFrom (name : CString) : ℕ → List LongOption → Option (ℕ × LongOption)
  | _, [] => none
  | i, opt :: longopts =>
      if opt.name = name then some (i, opt) else findLongOptionFrom name (i + 1) longopts

/-- `find_long_option`. -/
def findLongOption (longopts : Option (List LongOption)) (name : CString) :
    Option (ℕ × LongOption) :=
  findLongOptionFrom name 0 (longopts.getD [])

/-- The loop of `find_short_option`. -/
def findLetter : CString → CChar → ℤ
  | [], _ => -1
  | d :: p, c =>
      if d = c then
        if p[0]? = some colon then
          if p[1]? = some colon then 2 else 1
        else 0
      else findLetter p c

/-- `find_short_option`: `0` without an argument, `1` with a required and `2` with an
optional one, and `-1` for no option. -/
def findShortOption (optstring : Option CString) (c : CChar) : ℤ :=
  match optstring with
  | some optstring => findLetter optstring c
  | none => -1

/-- A message, unless `opterr` suppresses it. -/
def OptParser.complain (parser : OptParser) (text : CString) : Option CString :=
  if parser.opterr ≠ 0 then some text else none

def missingLongArgument (program name : CString) : CString :=
  program ++ cstr ": option '--" ++ name ++ cstr "' requires an argument\n"

def unrecognizedOption (program name : CString) : CString :=
  program ++ cstr ": unrecognized option '--" ++ name ++ cstr "'\n"

def missingShortArgument (program : CString) (c : CChar) : CString :=
  program ++ cstr ": option requires an argument -- '" ++ [c] ++ cstr "'\n"

def invalidOption (program : CString) (c : CChar) : CString :=
  program ++ cstr ": invalid option -- '" ++ [c] ++ cstr "'\n"

/-- `strchr(option_name, '=')`. -/
def equalsOf (memory : Memory) (optionName : CPointer) : Option CPointer :=
  (strchr (memory.read optionName) CChar.equals).map fun cut => optionName.add cut.1.length

/-- `if (equals) *equals = byte`. -/
def writeEquals (memory : Memory) (equals : Option CPointer) (byte : UInt8) : Memory :=
  match equals with
  | some equals => memory.write equals byte
  | none => memory

/-- The branch of `opt_parse_long` for `--name` and `--name=value`. -/
def parseLongOption (line : CommandLine) (parser : OptParser) (memory : Memory)
    (arg : CPointer) : OptCall :=
  let optionName := arg.add 2
  let equals := equalsOf memory optionName
  -- the `=` is a NUL from here on, and each way out puts it back
  let cut := writeEquals memory equals 0
  let restored := writeEquals cut equals CChar.equals.1
  let next := { parser with optind := parser.optind + 1 }
  match findLongOption line.longopts (cut.read optionName) with
  | some (index, opt) =>
      let found (parser : OptParser) : OptCall :=
        { report := some (if opt.flag.isSome then 0 else opt.val), parser := parser,
          memory := restored, longindex := some index,
          flagStore := opt.flag.map fun address => (address, opt.val), message := none }
      if opt.hasArg = 1 then
        match equals with
        | some equals => found { next with optarg := some (equals.add 1) }
        | none =>
            if next.optind < line.argv.length then
              found { next with optarg := line.element next.optind, optind := next.optind + 1 }
            else
              { report := some question.toInt, parser := { next with optopt := 0 },
                memory := restored, longindex := some index, flagStore := none,
                message := parser.complain
                  (missingLongArgument (line.programName cut) (cut.read optionName)) }
      else if opt.hasArg = 2 then
        match equals with
        | some equals => found { next with optarg := some (equals.add 1) }
        | none => found next
      else found next
  | none =>
      { report := some question.toInt, parser := { next with optopt := 0 }, memory := restored,
        longindex := none, flagStore := none,
        message := parser.complain
          (unrecognizedOption (line.programName cut) (cut.read optionName)) }

/-- What one pass through `opt_parse_long` comes to. -/
inductive OptStep
  /-- The function calls itself. -/
  | reenter (parser : OptParser)
  | returned (call : OptCall)

namespace OptParser

/-- Move on to the next element of `argv`. -/
def leave (parser : OptParser) : OptParser :=
  { parser with optind := parser.optind + 1, currentArg := none, shortOptPos := 0 }

/-- Start a cluster behind its `-`, unless the parser is in it already. -/
def enter (parser : OptParser) (arg : CPointer) : OptParser :=
  if parser.currentArg ≠ some arg then { parser with currentArg := some arg, shortOptPos := 1 }
  else parser

/-- Step over a letter, and out of a cluster that ends behind it. -/
def pass (parser : OptParser) (text : CString) : OptParser :=
  let next := { parser with shortOptPos := parser.shortOptPos + 1 }
  if text[next.shortOptPos]? = none then next.leave else next

/-- Return without an option. -/
def stop (parser : OptParser) (memory : Memory) : OptStep :=
  .returned { report := none, parser := parser, memory := memory, longindex := none,
              flagStore := none, message := none }

/-- Return the letter of a short option. -/
def reportLetter (parser : OptParser) (memory : Memory) (c : CChar) : OptStep :=
  .returned { report := some c.toInt, parser := parser, memory := memory, longindex := none,
              flagStore := none, message := none }

/-- Return `'?'` for a letter. -/
def refuseLetter (parser : OptParser) (memory : Memory) (c : CChar) (text : CString) : OptStep :=
  .returned { report := some question.toInt, parser := { parser with optopt := c.toInt },
              memory := memory, longindex := none, flagStore := none,
              message := parser.complain text }

end OptParser

/-- The branch of `opt_parse_long` for a cluster of short options. -/
def parseShortOption (line : CommandLine) (parser : OptParser) (memory : Memory)
    (arg : CPointer) : OptStep :=
  let text := memory.read arg
  let parser := parser.enter arg
  match text[parser.shortOptPos]? with
  | none => .reenter parser.leave
  | some c =>
      let optType := findShortOption line.optstring c
      let next := parser.pass text
      if 0 ≤ optType then
        if optType = 1 then
          if 0 < next.shortOptPos ∧ text[next.shortOptPos]? ≠ none then
            { next.leave with optarg := some (arg.add next.shortOptPos) }.reportLetter memory c
          else if next.optind < line.argv.length then
            { next.leave with optarg := line.element next.optind }.reportLetter memory c
          else next.refuseLetter memory c (missingShortArgument (line.programName memory) c)
        else if optType = 2 then
          if 0 < next.shortOptPos ∧ text[next.shortOptPos]? ≠ none then
            { next.leave with optarg := some (arg.add next.shortOptPos) }.reportLetter memory c
          else next.reportLetter memory c
        else next.reportLetter memory c
      else next.refuseLetter memory c (invalidOption (line.programName memory) c)

/-- One pass through `opt_parse_long`. -/
def optParseStep (line : CommandLine) (parser : OptParser) (memory : Memory) : OptStep :=
  if line.argv.length < 1 then parser.stop memory
  else
    let parser := { parser with optarg := none }
    if line.argv.length ≤ parser.optind then parser.stop memory
    else
      match line.element parser.optind with
      | none => parser.stop memory
      | some arg =>
          let text := memory.read arg
          if text[0]? ≠ some dash then parser.stop memory
          else if text = [dash, dash] then
            { parser with optind := parser.optind + 1 }.stop memory
          else if text[1]? = some dash ∧ text[2]? ≠ none then
            .returned (parseLongOption line parser memory arg)
          else if text[1]? ≠ none ∧ text[1]? ≠ some dash then
            parseShortOption line parser memory arg
          else { parser with optind := parser.optind + 1 }.stop memory

@[simp] theorem OptParser.enter_optind (parser : OptParser) (arg : CPointer) :
    (parser.enter arg).optind = parser.optind := by
  unfold enter
  split <;> rfl

theorem parseShortOption_reenter {line : CommandLine} {parser parser' : OptParser}
    {memory : Memory} {arg : CPointer}
    (h : parseShortOption line parser memory arg = .reenter parser') :
    parser' = (parser.enter arg).leave := by
  unfold parseShortOption at h
  cases hletter : (memory.read arg)[(parser.enter arg).shortOptPos]? with
  | none => simpa [hletter, eq_comm] using h
  | some c =>
      simp only [hletter, OptParser.reportLetter, OptParser.refuseLetter] at h
      split_ifs at h

/-- The function calls itself only to go on with the next element. -/
theorem optParseStep_reenter {line : CommandLine} {parser parser' : OptParser} {memory : Memory}
    (h : optParseStep line parser memory = .reenter parser') :
    parser.optind < line.argv.length ∧ parser'.optind = parser.optind + 1 := by
  simp only [optParseStep, OptParser.stop] at h
  split_ifs at h with hargc hend
  refine ⟨Nat.lt_of_not_le hend, ?_⟩
  cases harg : line.element parser.optind with
  | none => simp [harg] at h
  | some arg =>
      simp only [harg] at h
      split_ifs at h
      rw [parseShortOption_reenter h]
      simp [OptParser.leave]

/-- `opt_parse_long`. -/
def optParseLong (line : CommandLine) (parser : OptParser) (memory : Memory) : OptCall :=
  match _hstep : optParseStep line parser memory with
  | .returned call => call
  | .reenter parser' => optParseLong line parser' memory
  termination_by line.argv.length - parser.optind
  decreasing_by
    have := optParseStep_reenter _hstep
    omega

theorem optParseLong_of_returned {line : CommandLine} {parser : OptParser} {memory : Memory}
    {call : OptCall} (h : optParseStep line parser memory = .returned call) :
    optParseLong line parser memory = call := by
  rw [optParseLong]
  split
  · rename_i call' hcall
    rw [h] at hcall
    exact (OptStep.returned.inj hcall).symm
  · rename_i parser' hcall
    rw [h] at hcall
    cases hcall

/-- `while (opt_parse_long(...) != -1)`: the calls that the loop makes, up to the one that
returns `-1`. -/
inductive OptRun (line : CommandLine) : OptParser → Memory → List OptCall → Prop
  | last {parser : OptParser} {memory : Memory} :
      (optParseLong line parser memory).ret = -1 →
      OptRun line parser memory [optParseLong line parser memory]
  | report {parser : OptParser} {memory : Memory} {calls : List OptCall} :
      (optParseLong line parser memory).ret ≠ -1 →
      OptRun line (optParseLong line parser memory).parser
        (optParseLong line parser memory).memory calls →
      OptRun line parser memory (optParseLong line parser memory :: calls)

end BasC
