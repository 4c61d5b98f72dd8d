/-
# Stack frames

`gdb_output_stack_frame_parse` takes a line `#N 0xADDR in METHOD (ARGS) at FILE:LINE` apart
by moving a pointer over it. Each step here is the text from that pointer on.
-/

import BasC.Base.Numerals
import BasC.Base.Str

namespace BasC

open CChar

/-- `stack_frame_t`. -/
structure StackFrame where
  frameNumber : ℤ
  address : Option CString
  method : Option CString
  params : Option CString
  file : Option CString
  line : ℤ
  rawLine : CString
  deriving DecidableEq

/-- `thread_info_t`. -/
structure ThreadInfo where
  threadId : ℤ
  name : CString
  lwp : ℤ
  frames : List StackFrame
  deriving DecidableEq

/-- `isxdigit((unsigned char)c)`. -/
def isxdigit (c : CChar) : Bool :=
  isdigit c || (65 ≤ c.toNat && c.toNat ≤ 70) || (97 ≤ c.toNat && c.toNat ≤ 102)

/-- `*p == 'x' || *p == 'X'`. -/
def startsX (p : CString) : Bool := p.head? = some lowerX || p.head? = some upperX

/-- `(int)strtol(p, NULL, 10)` at a digit: the number, or `LONG_MAX`, cut to 32 bits. -/
def strtolInt (p : CString) : ℤ :=
  Int.bmod (min (digitsValue (p.takeWhile isdigit)) (2 ^ 63 - 1) : ℕ) (2 ^ 32)

/-- The number of a frame, and the text behind it. In `#30x...` the digits are cut before
the last one. -/
def parseFrameNumber (p : CString) : ℤ × CString :=
  let num := digitsValue (p.takeWhile isdigit)
  let digEnd := p.dropWhile isdigit
  if 0 < num ∧ startsX digEnd ∧ num % 10 = 0 then
    (num / 10, (CChar.digit 0) :: digEnd)
  else (num, digEnd)

/-- `0x` and the hexadecimal digits behind it. -/
def parseAddress (p : CString) : Option CString × CString :=
  let p := skipBlanks p
  if p.head? = some (CChar.digit 0) ∧ startsX p.tail then
    (some (p.take 2 ++ (p.drop 2).takeWhile isxdigit), (p.drop 2).dropWhile isxdigit)
  else (none, p)

/-- The text in front of ` at ` or ` (`, and the rest. -/
def splitMethod : CString → CString × CString
  | [] => ([], [])
  | c :: rest =>
      if (cstr " at ").isPrefixOf (c :: rest) || (cstr " (").isPrefixOf (c :: rest) then
        ([], c :: rest)
      else (c :: (splitMethod rest).1, (splitMethod rest).2)

/-- The method, behind an optional `in`. -/
def parseMethod (p : CString) : Option CString × CString :=
  let p := skipBlanks p
  let out := splitMethod ((dropWord (cstr "in ") p).getD p)
  (if out.1 = [] then none else some out.1, out.2)

/-- The text up to the parenthesis that brings `depth` to 0, and the rest; without one, the
pointer ends up at the end of the text. -/
def splitParams : ℕ → CString → Option CString × CString
  | 0, p => (some [], p)
  | _ + 1, [] => (none, [])
  | depth + 1, c :: rest =>
      let out :=
        if c = openParen then splitParams (depth + 2) rest
        else if c = closeParen then splitParams depth rest
        else splitParams (depth + 1) rest
      (out.1.map (c :: ·), out.2)

/-- The arguments, with their parentheses. -/
def parseParams (p : CString) : Option CString × CString :=
  match skipBlanks p with
  | [] => (none, [])
  | c :: rest =>
      if c = openParen then
        let out := splitParams 1 rest
        (out.1.map (c :: ·), out.2)
      else (none, c :: rest)

/-- The text in front of the first colon before a digit, on this line, and the text behind
that colon. -/
def splitColon : CString → Option (CString × CString)
  | [] => none
  | c :: rest =>
      if c = newline ∨ c = carriageReturn then none
      else if c = colon ∧ rest.head?.any isdigit then some ([], rest)
      else (splitColon rest).map fun out => (c :: out.1, out.2)

/-- The file and the line number. -/
def parseFile (p : CString) : Option CString × ℤ :=
  match dropWord (cstr "at ") (skipBlanks p) with
  | none => (none, 0)
  | some p =>
      match splitColon p with
      | none => (none, 0)
      | some (file, rest) => if file = [] then (none, 0) else (some file, strtolInt rest)

/-- What `gdb_output_stack_frame_parse` gives. -/
inductive FrameParse
  /-- `NULL`. -/
  | noFrame
  /-- The number overflows an `int`, and the behaviour is undefined. -/
  | overflow
  | frame (f : StackFrame)
  deriving DecidableEq

/-- The text behind the `#` of a frame line. -/
def frameText (line : CString) : Option CString :=
  match skipBlanks line with
  | [] => none
  | c :: p => if c = hash ∧ p.head?.any isdigit then some p else none

/-- `gdb_output_stack_frame_parse`. -/
def gdbOutputStackFrameParse (line : CString) : FrameParse :=
  match frameText line with
  | none => .noFrame
  | some p =>
      if intMax < digitsValue (p.takeWhile isdigit) then .overflow
      else
        let (frameNumber, p) := parseFrameNumber p
        let (address, p) := parseAddress p
        let (method, p) := parseMethod p
        let (params, p) := parseParams p
        let (file, fileLine) := parseFile p
        .frame ⟨frameNumber, address, method, params, file, fileLine, line⟩

end BasC
