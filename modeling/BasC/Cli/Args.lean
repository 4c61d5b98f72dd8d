/-
# The argument parser

`args.c`: one line becomes an argument vector. A first pass splits the line into raw
words, removing quotes and escapes; a second pass expands braces and then wildcards in
the raw words.

Allocations succeed here. The growable buffers keep the capacity discipline of the
source, the fixed buffers cut as `strncpy` and `snprintf` do, and the directory
enumeration function is a parameter that answers every call by the items it reports and
the status it returns.
-/

import BasC.Base.Numerals
import BasC.Base.CString
import BasC.Base.Fnmatch
import BasC.Lib.GrowArray
import Mathlib.Algebra.Order.Ring.Int

namespace BasC

open CChar Lib

/-- What fits into a `char` array of `size` bytes next to the terminating NUL. -/
def bounded (size : ℕ) (text : CString) : CString := text.take (size - 1)

theorem bounded_eq_self {size : ℕ} {text : CString} (hfits : text.length < size) :
    bounded size text = text :=
  List.take_of_length_le (by omega)

/-- `contains_wildcard`. -/
def containsWildcard (str : CString) : Bool :=
  if (strchr str star).isSome || (strchr str question).isSome then true
  else (strchr str openBracket).isSome

/-- `contains_brace`. -/
def containsBrace (str : CString) : Bool := (strchr str openBrace).isSome

/-- The inner loop of `expand_brace`: the current item, which a comma outside quotes or
the end of the content ends, and the content from there on. -/
def braceItem : Option CChar → CString → CString × CString
  | _, [] => ([], [])
  | none, c :: text =>
      if c = singleQuote ∨ c = doubleQuote then
        let cut := braceItem (some c) text
        (c :: cut.1, cut.2)
      else if c = comma then ([], c :: text)
      else
        let cut := braceItem none text
        (c :: cut.1, cut.2)
  | some quoteChar, c :: text =>
      let cut := braceItem (if c = quoteChar then none else some quoteChar) text
      (c :: cut.1, cut.2)

theorem braceItem_append (quoteChar : Option CChar) (text : CString) :
    (braceItem quoteChar text).1 ++ (braceItem quoteChar text).2 = text := by
  induction text generalizing quoteChar with
  | nil => cases quoteChar <;> rfl
  | cons c text ih =>
      cases quoteChar with
      | none =>
          unfold braceItem
          split
          · simp [ih]
          · split <;> simp [ih]
      | some q => simp [braceItem, ih]

/-- The outer loop of `expand_brace`: the items of the content, each without the white
space in front of it. -/
def braceItems (content : CString) : List CString :=
  match _hcontent : skipSpaces content with
  | [] => []
  | c :: text =>
      match _hitem : (braceItem none (c :: text)).2 with
      | [] => [(braceItem none (c :: text)).1]
      | d :: rest =>
          (braceItem none (c :: text)).1 :: if d = comma then braceItems rest else []
termination_by content.length
decreasing_by
  obtain ⟨lead, hlead, -⟩ := exists_spaces_append_skipSpaces content
  have hsplit := congrArg List.length (braceItem_append none (c :: text))
  have hlength := congrArg List.length hlead
  rw [_hitem, List.length_append, List.length_cons] at hsplit
  rw [_hcontent, List.length_append] at hlength
  omega

/-- `expand_brace`: the alternatives of the first brace pair. The empty list stands for the
return value 0, which leaves the pattern unexpanded. -/
def expandBrace (pattern : CString) : List CString :=
  match strchr pattern openBrace with
  | none => []
  | some (before, braceStart) =>
      match strchr braceStart closeBrace with
      | none => []
      | some (content, braceEnd) =>
          (braceItems content.tail).map fun item => before ++ item ++ braceEnd.tail

/-- The arguments of one call of the enumeration function. -/
structure EnumCall where
  enumContext : Option CString
  prefixArg : Option CString
  pattern : CString
  deriving DecidableEq

/-- The items an enumeration reports to its callback, in order, and its return value. -/
structure EnumResult where
  items : List CString
  status : ℤ

/-- The enumeration function and its context; `none` is `NULL`. -/
structure ArgsEnv where
  enumFunc : Option (EnumCall → EnumResult)
  enumContext : Option CString

/-- `pattern_dir` and `file_pattern` of `expand_wildcard`. -/
def patternParts (pattern : CString) : CString × CString :=
  match strrchr pattern slash with
  | some (dir, lastSlash) =>
      (if 0 < dir.length ∧ dir.length < 256 then dir else [], bounded 256 lastSlash.tail)
  | none => ([], bounded 256 pattern)

/-- `strpbrk(text, "*?[") != NULL` for one byte of the text. -/
def isWildcardByte (c : CChar) : Bool := c = star || c = question || c = openBracket

/-- `filename_prefix` of `expand_wildcard`, the hint given to the enumeration function. -/
def filenamePrefix (filePattern : CString) : CString :=
  let literal := filePattern.takeWhile fun c => !isWildcardByte c
  let hasWildcard := filePattern.any isWildcardByte
  if hasWildcard && decide (0 < literal.length) then
    if literal.length < 256 then literal else []
  else if decide (0 < filePattern.length) && !hasWildcard then bounded 256 filePattern
  else []

/-- `enum_dir_context` of `expand_wildcard`: the directory to enumerate. -/
def enumDirContext (enumContext : Option CString) (patternDir : CString) : Option CString :=
  if patternDir = [] then enumContext
  else
    match enumContext.getD [] with
    | [] =>
        if patternDir.head? = some slash then some (bounded 1024 patternDir)
        else some (bounded 1024 (slash :: patternDir))
    | current =>
        if current = [slash] then some (bounded 1024 (slash :: patternDir))
        else some (bounded 1024 (current ++ slash :: patternDir))

/-- `wildcard_callback`: the path appended for one reported item, if any. -/
def wildcardCallback (patternDir filePattern item : CString) : Option CString :=
  let filename :=
    match strrchr item slash with
    | none => item
    | some (_, lastSlash) => lastSlash.tail
  if fnmatch filePattern filename then
    if patternDir ≠ [] then some (bounded 1024 (patternDir ++ slash :: filename))
    else some (bounded 1024 filename)
  else none

/-- What `expand_wildcard` leaves behind: its return value, the match array, and the calls
it made of the enumeration function. -/
structure WildcardOut where
  ret : ℤ
  matchArray : List CString
  calls : List EnumCall

/-- The call of the enumeration function that `expand_wildcard` prepares. -/
def wildcardCall (env : ArgsEnv) (pattern : CString) : EnumCall :=
  let parts := patternParts pattern
  let hint := filenamePrefix parts.2
  { enumContext := enumDirContext env.enumContext parts.1
    prefixArg := if 0 < hint.length then some hint else none
    pattern := parts.2 }

/-- `expand_wildcard`. -/
def expandWildcard (env : ArgsEnv) (pattern : CString) : WildcardOut :=
  match env.enumFunc with
  | none => ⟨0, [], []⟩
  | some enumFunc =>
      let parts := patternParts pattern
      let call := wildcardCall env pattern
      let result := enumFunc call
      if result.status = 0 then
        ⟨0, result.items.filterMap (wildcardCallback parts.1 parts.2), [call]⟩
      else ⟨-1, [], [call]⟩

/-- The first allocation of `parse_arg`; one slot stays free for the terminating NUL. -/
def argBuffer : GrowArray CChar 1 := .empty 64 (by omega) (by omega)

/-- The first allocation of the argument vectors of `args_parse`. -/
def argVector : GrowArray CString 0 := .empty 16 (by omega) (by omega)

@[simp]
theorem argBuffer_items : argBuffer.items = [] := rfl

@[simp]
theorem argVector_items : argVector.items = [] := rfl

/-- The main loop of `parse_arg`: the line from where it stopped, the quote still open, and
the text collected. -/
def parseArgLoop : CString → Option CChar → Bool → GrowArray CChar 1 →
    CString × Option CChar × GrowArray CChar 1
  | [], quoteChar, _, result => ([], quoteChar, result)
  | c :: line, quoteChar, true, result => parseArgLoop line quoteChar false (result.push c)
  | c :: line, quoteChar, false, result =>
      if c = backslash then parseArgLoop line quoteChar true result
      else
        match quoteChar with
        | some q =>
            if c = q then parseArgLoop line none false result
            else parseArgLoop line (some q) false (result.push c)
        | none =>
            if c = singleQuote ∨ c = doubleQuote then parseArgLoop line (some c) false result
            else if isspace c then (c :: line, none, result)
            else parseArgLoop line none false (result.push c)

/-- How `parse_arg` returns. -/
inductive ParsedArg
  /-- `NULL` without an error: nothing but white space was left. -/
  | endOfLine
  /-- `NULL` with the error set. -/
  | unmatchedQuote
  | arg (text rest : CString)

/-- `parse_arg`. -/
def parseArg (line : CString) : ParsedArg :=
  match skipSpaces line with
  | [] => .endOfLine
  | c :: line =>
      match parseArgLoop (c :: line) none false argBuffer with
      | (_, some _, _) => .unmatchedQuote
      | (rest, none, result) => .arg result.items rest

theorem parseArgLoop_length_le (line : CString) (quoteChar : Option CChar) (escaped : Bool)
    (result : GrowArray CChar 1) :
    (parseArgLoop line quoteChar escaped result).1.length ≤ line.length := by
  induction line generalizing quoteChar escaped result with
  | nil => simp [parseArgLoop]
  | cons c line ih =>
      cases escaped with
      | true => exact (ih quoteChar false (result.push c)).trans (by simp)
      | false =>
          unfold parseArgLoop
          split
          · exact (ih _ _ _).trans (by simp)
          · split
            · split <;> exact (ih _ _ _).trans (by simp)
            · split
              · exact (ih _ _ _).trans (by simp)
              · split
                · exact le_rfl
                · exact (ih _ _ _).trans (by simp)

/-- A word starts at a byte that is no white space, so reading it makes progress. -/
theorem parseArgLoop_cons_length_lt {c : CChar} (hspace : isspace c = false) (line : CString)
    (result : GrowArray CChar 1) :
    (parseArgLoop (c :: line) none false result).1.length < (c :: line).length := by
  have htail : ∀ quoteChar escaped result,
      (parseArgLoop line quoteChar escaped result).1.length < (c :: line).length :=
    fun _ _ _ => Nat.lt_succ_of_le (parseArgLoop_length_le _ _ _ _)
  simp only [parseArgLoop, hspace, Bool.false_eq_true, if_false]
  split
  · exact htail _ _ _
  · split
    · exact htail _ _ _
    · exact htail _ _ _

theorem parseArg_rest_length_lt {line text rest : CString}
    (harg : parseArg line = .arg text rest) : rest.length < line.length := by
  unfold parseArg at harg
  split at harg
  · simp at harg
  · rename_i c line' hskip
    obtain ⟨hspace, hlength⟩ := skipSpaces_eq_cons hskip
    have hstep := parseArgLoop_cons_length_lt hspace line' argBuffer
    split at harg
    · simp at harg
    · rename_i heq
      obtain ⟨rfl, rfl⟩ : _ = text ∧ _ = rest := by simpa using harg
      rw [heq] at hstep
      exact hstep.trans_le hlength

/-- The first loop of `args_parse`: the raw words of the rest of the line, or `none` when
`parse_arg` reports an error. -/
def rawArgsLoop (p : CString) (rawArgs : GrowArray CString 0) : Option (GrowArray CString 0) :=
  match _hskip : skipSpaces p with
  | [] => some rawArgs
  | c :: line =>
      match _harg : parseArg (c :: line) with
      | .endOfLine => some rawArgs
      | .unmatchedQuote => none
      | .arg arg rest => rawArgsLoop rest (rawArgs.push arg)
termination_by p.length
decreasing_by
  exact (parseArg_rest_length_lt _harg).trans_le (skipSpaces_eq_cons _hskip).2

/-- The raw words of a line. -/
def rawArgs (line : CString) : Option (GrowArray CString 0) := rawArgsLoop line argVector

/-- The argument vector under construction and the enumerations made for it. -/
structure Expansion where
  args : GrowArray CString 0
  calls : List EnumCall

/-- Add one argument, or the files its wildcards match. -/
def addWildcard (env : ArgsEnv) (out : Expansion) (arg : CString) : Expansion :=
  if containsWildcard arg then
    let wildcard := expandWildcard env arg
    let calls := out.calls ++ wildcard.calls
    if wildcard.ret = 0 then
      if 0 < wildcard.matchArray.length then ⟨out.args.pushAll wildcard.matchArray, calls⟩
      -- no match: the command is to report the pattern itself
      else ⟨out.args.push arg, calls⟩
    else ⟨out.args.push arg, calls⟩
  else ⟨out.args.push arg, out.calls⟩

/-- The body of the second loop of `args_parse`. -/
def addArg (env : ArgsEnv) (out : Expansion) (arg : CString) : Expansion :=
  if containsBrace arg then
    match expandBrace arg with
    | [] => addWildcard env out arg
    | braceExpansions => braceExpansions.foldl (addWildcard env) out
  else addWildcard env out arg

/-- The second loop of `args_parse`. -/
def secondPass (env : ArgsEnv) (rawArgs : List CString) : Expansion :=
  rawArgs.foldl (addArg env) ⟨argVector, []⟩

/-- The conversion `(int)count` of a `size_t`, modulo `2 ^ 32`. -/
@[irreducible]
def toInt (count : ℕ) : ℤ := (count : ℤ).bmod 4294967296

theorem toInt_eq_self {count : ℕ} (hfits : (count : ℤ) ≤ intMax) : toInt count = count := by
  unfold intMax at hfits
  unfold toInt
  apply Int.bmod_eq_of_le
  · omega
  · omega

/-- An `int` never counts more than there is. -/
theorem toInt_le (count : ℕ) : toInt count ≤ count := by
  by_cases hfits : (count : ℤ) ≤ intMax
  · exact (toInt_eq_self hfits).le
  · have hle : toInt count ≤ intMax := by
      unfold toInt
      exact Int.bmod_le (by omega)
    omega

/-- The first count past the largest `int` wraps around. -/
theorem toInt_succ_intMax : toInt 2147483648 = -2147483648 := by
  unfold toInt
  decide +kernel

/-- What an argument parser hands back: its return value, `*argc` and `*argv`. Every slot
below `argc` holds a string. -/
structure ArgsOut where
  ret : ℤ
  argc : ℤ
  argv : Option (List (Option CString))
  filled : ∀ i : ℕ, (i : ℤ) < argc → ∃ arg, (argv.getD [])[i]? = some (some arg)

namespace ArgsOut

/-- The error return, with `*argc = 0` and `*argv = NULL`. -/
def failure : ArgsOut where
  ret := -1
  argc := 0
  argv := none
  filled := fun i hi => absurd hi (by omega)

/-- The successful return: the arguments, a `NULL` behind them, and their number as an
`int`. -/
def success (args : List CString) : ArgsOut where
  ret := 0
  argc := toInt args.length
  argv := some (args.map some ++ [none])
  filled := by
    intro i hi
    have hlt : i < args.length := by
      have hle := toInt_le args.length
      omega
    exact ⟨args[i], by simp [List.getElem?_append, hlt]⟩

@[simp]
theorem failure_ret : failure.ret = -1 := rfl

@[simp]
theorem success_ret (args : List CString) : (success args).ret = 0 := rfl

@[simp]
theorem success_argc (args : List CString) : (success args).argc = toInt args.length := rfl

@[simp]
theorem success_argv (args : List CString) :
    (success args).argv = some (args.map some ++ [none]) := rfl

/-- The strings in the slots below `argc`. -/
def strings (out : ArgsOut) : List CString :=
  ((out.argv.getD []).take out.argc.toNat).reduceOption

/-- As long as the count fits an `int`, the arguments are exactly what a caller reads. -/
theorem success_strings {args : List CString} (hfits : (args.length : ℤ) ≤ intMax) :
    (success args).strings = args := by
  have hreduce : (args.map some).reduceOption = args :=
    List.filterMap_map.trans List.filterMap_some
  simp [strings, toInt_eq_self hfits, hreduce]

end ArgsOut

/-- `args_parse`. -/
def argsParse (env : ArgsEnv) (line : CString) : ArgsOut :=
  match rawArgs line with
  | none => .failure
  | some raw => .success (secondPass env raw.items).args.items

/-- The calls of the enumeration function that `args_parse` makes. -/
def argsParseCalls (env : ArgsEnv) (line : CString) : List EnumCall :=
  match rawArgs line with
  | none => []
  | some raw => (secondPass env raw.items).calls

end BasC
