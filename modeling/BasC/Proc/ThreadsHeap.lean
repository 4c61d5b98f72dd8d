/-
# The memory of the stack parsers

`gdb_output_parse` and `backtrace_parse` with their memory: the buffer of `str_getline`, the threads
and frames that `calloc` gives, the copies of the texts in them, and the nodes of the lists. GLib
ends the program when it has no memory for a node. Every other request may be refused, and each
place in the source says what happens then: a field stays `NULL`, a frame or a thread is left out,
or no more lines are read.
-/

import BasC.Cli.ArgsHeap
import BasC.Proc.Stackdump

namespace BasC

open CChar Lib

/-- The places that ask for memory. -/
inductive DumpSite
  | line | lineGrow
  | thread | threadName | otherName | lastName
  | frame | rawLine | address | method | params | file
  deriving DecidableEq

/-- Which requests are met at which place. -/
abbrev DumpGrants := DumpSite → ℕ → Bool

/-- A node of a `GList`. -/
structure GNode (α : Type) where
  node : ℕ
  data : α

/-- `g_list_append`. -/
def gListAppend {α : Type} (list : List (GNode α)) (data : α) : Owning (List (GNode α)) := do
  let node ← alloc
  pure (list ++ [⟨node, data⟩])

/-- `stack_frame_t`, in the block that `calloc` gave. -/
structure HeapFrame where
  block : ℕ
  frameNumber : ℤ
  address : Option HeapString
  method : Option HeapString
  params : Option HeapString
  file : Option HeapString
  line : ℤ
  rawLine : Option HeapString

/-- What `calloc` gives. -/
def HeapFrame.fresh (block : ℕ) : HeapFrame := ⟨block, 0, none, none, none, none, 0, none⟩

/-- `thread_info_t`. -/
structure HeapThread where
  block : ℕ
  threadId : ℤ
  name : Option HeapString
  lwp : ℤ
  frames : List (GNode HeapFrame)

/-- What `calloc` gives. -/
def HeapThread.fresh (block : ℕ) : HeapThread := ⟨block, 0, none, 0, []⟩

/-- The block of a pointer that may be `NULL`. -/
def fieldBlock (field : Option HeapString) : List ℕ := (field.map HeapString.block).toList

/-- `stack_frame_free`. -/
def stackFrameFree (f : HeapFrame) : Owning PUnit := do
  free (fieldBlock f.address)
  free (fieldBlock f.method)
  free (fieldBlock f.params)
  free (fieldBlock f.file)
  free (fieldBlock f.rawLine)
  free [f.block]

/-- `thread_info_free`. -/
def threadInfoFree (t : HeapThread) : Owning PUnit := do
  free (fieldBlock t.name)
  t.frames.forM fun l => stackFrameFree l.data
  free (t.frames.map GNode.node)
  free [t.block]

/-- `thread_info_list_free`. -/
def threadInfoListFree (threads : List (GNode HeapThread)) : Owning PUnit := do
  threads.forM fun l => threadInfoFree l.data
  free (threads.map GNode.node)

/-- A frame, as the functions that print it read it. -/
def HeapFrame.seen (f : HeapFrame) : StackFrame where
  frameNumber := f.frameNumber
  address := f.address.map HeapString.text
  method := f.method.map HeapString.text
  params := f.params.map HeapString.text
  file := f.file.map HeapString.text
  line := f.line
  rawLine := (f.rawLine.map HeapString.text).getD []

/-- A thread, as the functions that print it read it: `t->name ? t->name : "?"`. A thread without a
name is not left out for its name, and one with the name `?` is not either. -/
def HeapThread.seen (t : HeapThread) : ThreadInfo where
  threadId := t.threadId
  name := (t.name.map HeapString.text).getD (cstr "?")
  lwp := t.lwp
  frames := t.frames.map fun l => l.data.seen

section Parsing

variable (grants : DumpGrants)

/-- `str_dup`, or a `malloc` and the copy of a part of the line. -/
def copyText (grant : ℕ → Bool) (text : CString) : Owning (Option HeapString) := do
  pure ((← malloc grant).map fun block => ⟨block, text⟩)

/-- A field that the line may have. -/
def copyField (grant : ℕ → Bool) : Option CString → Owning (Option HeapString)
  | none => pure none
  | some text => copyText grant text

/-- `if (!name) name = …`. -/
def copyInstead (name : Option HeapString) (grant : ℕ → Bool) (text : CString) :
    Owning (Option HeapString) :=
  match name with
  | none => copyText grant text
  | some name => pure (some name)

/-- What `gdb_output_stack_frame_parse` gives. -/
inductive HeapFrameParse
  | noFrame
  | overflow
  | frame (f : HeapFrame)

/-- `gdb_output_stack_frame_parse`. The texts are found in the line, so a field that is not stored
does not change those behind it. -/
def gdbOutputStackFrameParseIn (line : CString) : Owning HeapFrameParse :=
  match frameText line with
  | none => pure .noFrame
  | some p => do
      match ← malloc (grants .frame) with
      | none => pure .noFrame
      | some block =>
          match ← copyText (grants .rawLine) line with
          | none => do
              stackFrameFree (.fresh block)
              pure .noFrame
          | some rawLine =>
              if intMax < digitsValue (p.takeWhile isdigit) then pure .overflow
              else do
                let number := parseFrameNumber p
                let address := parseAddress number.2
                let addressCopy ← copyField (grants .address) address.1
                let method := parseMethod address.2
                let methodCopy ← copyField (grants .method) method.1
                let params := parseParams method.2
                let paramsCopy ← copyField (grants .params) params.1
                let file := parseFile params.2
                let fileCopy ← copyField (grants .file) file.1
                pure (.frame ⟨block, number.1, addressCopy, methodCopy, paramsCopy, fileCopy,
                  file.2, some rawLine⟩)

/-- `gdb_output_thread_info_parse`. -/
def gdbOutputThreadInfoParseIn (line : CString) : Owning (Option HeapThread) :=
  match dropWord (cstr "Thread ") (skipBlanks line) with
  | none => pure none
  | some p => do
      match ← malloc (grants .thread) with
      | none => pure none
      | some block =>
          if p.head?.any isdigit then do
            let quoted ← copyField (grants .threadName)
              (if threadName line = [] then none else some (threadName line))
            let name ← copyInstead quoted (grants .otherName) []
            pure (some ⟨block, strtolInt p, name, threadLwp (p.dropWhile isdigit), []⟩)
          else do
            threadInfoFree (.fresh block)
            pure none

/-- The name in parentheses, if there is one. -/
def parenthesizedName (line : CString) : Option CString :=
  match strchr line openParen with
  | none => none
  | some (_, p) =>
      match strchr p.tail closeParen with
      | none => none
      | some (name, _) => if name = [] then none else some name

/-- `backtrace_thread_name_from_line`. -/
def backtraceThreadNameFromLineIn (line : CString) : Owning (Option HeapString) := do
  let name ← copyField (grants .threadName) (parenthesizedName line)
  copyInstead name (grants .otherName) (cstr "current")

/-- The thread of a header in the format of `backtrace_symbols`. -/
def backtraceThreadIn (line : CString) : Owning (Option HeapThread) := do
  match ← malloc (grants .thread) with
  | none => pure none
  | some block => do
      let found ← backtraceThreadNameFromLineIn grants line
      let name ← copyInstead found (grants .lastName) (cstr "?")
      pure (some ⟨block, 0, name, 0, []⟩)

/-- The threads that have been found, with the `current` one apart. -/
structure HeapThreads where
  threads : List (GNode HeapThread)
  current : Option (GNode HeapThread)

/-- The list `result`. -/
def HeapThreads.result (s : HeapThreads) : List (GNode HeapThread) := s.threads ++ s.current.toList

/-- `current` is the thread of a header, or `NULL`. -/
def beginThread (s : HeapThreads) : Option HeapThread → Owning HeapThreads
  | none => pure ⟨s.result, none⟩
  | some thread => do
      let node ← alloc
      pure ⟨s.result, some ⟨node, thread⟩⟩

/-- A line that is no header. -/
def addFrameIn (s : HeapThreads) (line : CString) : Owning (Option HeapThreads) :=
  match s.current with
  | none => pure (some s)
  | some thread =>
      if line.head? = some hash then do
        match ← gdbOutputStackFrameParseIn grants line with
        | .noFrame => pure (some s)
        | .overflow => pure none
        | .frame f => do
            let frames ← gListAppend thread.data.frames f
            pure (some { s with
              current := some { thread with data := { thread.data with frames := frames } } })
      else pure (some s)

/-- One round of the loop of `gdb_output_parse`; `none` when a frame number overflows. -/
def gdbOutputLineIn (s : HeapThreads) (line : CString) : Owning (Option HeapThreads) :=
  if isGdbNoiseLine line then pure (some s)
  else if isThreadHeader line then do
    let thread ← gdbOutputThreadInfoParseIn grants line
    let s ← beginThread s thread
    pure (some s)
  else addFrameIn grants s line

/-- One round of the loop of `backtrace_parse`. -/
def backtraceLineIn (s : HeapThreads) (line : CString) : Owning (Option HeapThreads) :=
  if isBacktraceThreadHeader line then do
    let thread ← backtraceThreadIn grants line
    let s ← beginThread s thread
    pure (some s)
  else addFrameIn grants s line

/-- `line` and `cap`. -/
structure HeapLine where
  block : ℕ
  size : ℕ

/-- `if (len + 1 >= *n)`, and the `realloc` behind it. -/
def growLineIn (buffer : HeapLine) (len : ℕ) : Owning (Option HeapLine) :=
  if buffer.size ≤ len + 1 then do
    pure ((← realloc (grants .lineGrow) (some buffer.block)).map fun block =>
      ⟨block, buffer.size * 2⟩)
  else pure (some buffer)

/-- `while ((ch = fgetc(stream)) != EOF)`: the buffer, and the text with the rest of the stream. -/
def getlineLoopIn : List UInt8 → HeapLine → List UInt8 →
    Owning (HeapLine × Option (List UInt8 × List UInt8))
  | [], buffer, text => pure (buffer, some (text, []))
  | ch :: rest, buffer, text => do
      match ← growLineIn grants buffer text.length with
      | none => pure (buffer, none)
      | some buffer =>
          if ch = 10 then pure (buffer, some (text ++ [ch], rest))
          else getlineLoopIn rest buffer (text ++ [ch])

/-- `str_getline` with a buffer. Nothing has been read at the end of the stream. -/
def readLineIn (buffer : HeapLine) (stream : List UInt8) :
    Owning (Option HeapLine × Option (List UInt8 × List UInt8)) := do
  let out ← getlineLoopIn grants stream buffer []
  pure (some out.1, out.2.filter fun read => read.1 ≠ [])

/-- `str_getline`, where there may not be a buffer yet. -/
def strGetlineIn (lineptr : Option HeapLine) (stream : List UInt8) :
    Owning (Option HeapLine × Option (List UInt8 × List UInt8)) :=
  match lineptr with
  | some buffer => readLineIn grants buffer stream
  | none => do
      match ← malloc (grants .line) with
      | none => pure (none, none)
      | some block => readLineIn grants ⟨block, 128⟩ stream

/-- `while (str_getline(&line, &cap, in) > 0)`, in no more than a number of calls, and
`free(line)`. -/
def parseLinesIn (parseLine : HeapThreads → CString → Owning (Option HeapThreads)) :
    ℕ → Option HeapLine → List UInt8 → HeapThreads → Owning (Option HeapThreads)
  | 0, lineptr, _, s => do
      free (lineptr.map HeapLine.block).toList
      pure (some s)
  | calls + 1, lineptr, stream, s => do
      let out ← strGetlineIn grants lineptr stream
      match out.2 with
      | none => do
          free (out.1.map HeapLine.block).toList
          pure (some s)
      | some read => do
          match ← parseLine s (textOf read.1) with
          | none => pure none
          | some s => parseLinesIn parseLine calls out.1 read.2 s

/-- `gdb_output_parse`. -/
def gdbOutputParseIn (stream : List UInt8) : Owning (Option (List (GNode HeapThread))) := do
  pure ((← parseLinesIn grants (gdbOutputLineIn grants) (stream.length + 1) none stream
    ⟨[], none⟩).map HeapThreads.result)

/-- `backtrace_parse`. -/
def backtraceParseIn (stream : List UInt8) : Owning (Option (List (GNode HeapThread))) := do
  pure ((← parseLinesIn grants (backtraceLineIn grants) (stream.length + 1) none stream
    ⟨[], none⟩).map HeapThreads.result)

end Parsing

/-- The threads are printed and freed. -/
def showThreads (schema : Option StackdumpColorSchema) :
    Option (List (GNode HeapThread)) → Owning (Option CString)
  | none => pure none
  | some threads => do
      let text := threadInfoListFormat (schema.getD stackdumpColorSchemaDefault)
        (threads.map fun l => l.data.seen)
      threadInfoListFree threads
      pure (some text)

/-- `gdb_output_highlight_fd`. -/
def gdbOutputHighlightFdIn (grants : DumpGrants) (input : List UInt8)
    (schema : Option StackdumpColorSchema) : Owning (Option CString) := do
  showThreads schema (← gdbOutputParseIn grants input)

/-- `backtrace_highlight_fd`. -/
def backtraceHighlightFdIn (grants : DumpGrants) (input : List UInt8)
    (schema : Option StackdumpColorSchema) : Owning (Option CString) := do
  showThreads schema (← backtraceParseIn grants input)

end BasC
