/-
# The memory of the argument parser

`args.c` with its memory. Every `malloc`, `realloc` and `free` of `args_parse`, `args_free` and
`args_parse_to_list` is here, with the way out of the function when it fails, and each place in the
source that asks for memory has requests of its own that may be met or not.
-/

import BasC.Base.ItemList
import BasC.Cli.ArgsExpansion
import BasC.Lib.Ownership
import BasC.Util.PrefixMapSearch

namespace BasC

open CChar Lib

/-- A string in memory: its block and its text. -/
structure HeapString where
  block : ℕ
  text : CString
  deriving DecidableEq

/-- The places of `args.c`, and of the functions of `string_list.c` that it calls, that ask for
memory. -/
inductive ArgsSite
  | word | wordGrow
  | bracePrefix | braceContent | braceItem | braceGrow
  | matchList | matchListGrow | matchListText | matchArray | matchText
  | args | argsGrow | argsNull | rawArgs | rawArgsGrow
  | list | listGrow | listText
  deriving DecidableEq

/-- Which requests are met at which place. -/
abbrev Grants := ArgsSite → ℕ → Bool

section Parsing

variable (grants : Grants)

/-- `result[len++] = c`, in a larger buffer if this one is full. Without one, the buffer is
freed. -/
def storeByte (block : ℕ) (result : GrowArray CChar 1) (c : CChar) :
    Owning (Option (ℕ × GrowArray CChar 1)) :=
  if result.capacity ≤ result.items.length + 1 then do
    match ← realloc (grants .wordGrow) (some block) with
    | none => do
        free [block]
        pure none
    | some block => pure (some (block, result.push c))
  else pure (some (block, result.push c))

/-- The main loop of `parse_arg` with the buffer that it writes. -/
def parseArgLoopIn : CString → Option CChar → Bool → ℕ → GrowArray CChar 1 →
    Owning (Option (CString × Option CChar × ℕ × GrowArray CChar 1))
  | [], quoteChar, _, block, result => pure (some ([], quoteChar, block, result))
  | c :: line, quoteChar, true, block, result => do
      match ← storeByte grants block result c with
      | none => pure none
      | some (block, result) => parseArgLoopIn line quoteChar false block result
  | c :: line, quoteChar, false, block, result =>
      if c = backslash then parseArgLoopIn line quoteChar true block result
      else
        match quoteChar with
        | some q =>
            if c = q then parseArgLoopIn line none false block result
            else do
              match ← storeByte grants block result c with
              | none => pure none
              | some (block, result) => parseArgLoopIn line (some q) false block result
        | none =>
            if c = singleQuote ∨ c = doubleQuote then
              parseArgLoopIn line (some c) false block result
            else if isspace c then pure (some (c :: line, none, block, result))
            else do
              match ← storeByte grants block result c with
              | none => pure none
              | some (block, result) => parseArgLoopIn line none false block result

/-- How `parse_arg` returns, with the string that it hands over. -/
inductive HeapArg
  | endOfLine
  | error
  | arg (arg : HeapString) (rest : CString)

/-- `parse_arg`. -/
def parseArgIn (line : CString) : Owning HeapArg := do
  match ← malloc (grants .word) with
  | none => pure .error
  | some block =>
      match skipSpaces line with
      | [] => do
          free [block]
          pure .endOfLine
      | c :: line => do
          match ← parseArgLoopIn grants (c :: line) none false block argBuffer with
          | none => pure .error
          | some (_, some _, block, _) => do
              free [block]
              pure .error
          | some (rest, none, block, result) => pure (.arg ⟨block, result.items⟩ rest)

/-- An array of strings: its block, and the strings in its slots. -/
structure HeapArray where
  block : ℕ
  strings : GrowArray HeapString 0

/-- `ARGS_INITIAL_CAPACITY`. -/
def argsInitialCapacity : ℕ := 16

theorem argsInitialCapacity_pos : 0 < argsInitialCapacity := Nat.succ_pos 15

namespace HeapArray

/-- A fresh array. -/
def fresh (block : ℕ) : HeapArray :=
  ⟨block, .empty argsInitialCapacity argsInitialCapacity_pos argsInitialCapacity_pos.le⟩

/-- Store a string, in an array of twice the size if this one is full. Without one, nothing has
happened. -/
def push (grant : ℕ → Bool) (array : HeapArray) (arg : HeapString) : Owning (Bool × HeapArray) :=
  if array.strings.capacity ≤ array.strings.items.length then do
    match ← realloc grant (some array.block) with
    | none => pure (false, array)
    | some block => pure (true, ⟨block, array.strings.push arg⟩)
  else pure (true, ⟨array.block, array.strings.push arg⟩)

/-- Free the strings and the array. -/
def release (array : HeapArray) : Owning PUnit := do
  free (array.strings.items.map HeapString.block)
  free [array.block]

end HeapArray

/-- The first loop of `args_parse`, for so many rounds. A round takes one word at least, so the
length of the text is enough. -/
def rawArgsLoopIn : ℕ → CString → HeapArray → Owning (Option HeapArray)
  | 0, _, raw => pure (some raw)
  | rounds + 1, p, raw =>
      match skipSpaces p with
      | [] => pure (some raw)
      | c :: line => do
          match ← parseArgIn grants (c :: line) with
          | .error => do
              raw.release
              pure none
          | .endOfLine => pure (some raw)
          | .arg arg rest => do
              match ← raw.push (grants .rawArgsGrow) arg with
              | (true, raw) => rawArgsLoopIn rounds rest raw
              | (false, raw) => do
                  free [arg.block]
                  raw.release
                  pure none

/-- What `expand_brace` returns and leaves in `*expansions` and `*exp_count`. -/
structure BraceOut where
  ret : ℤ
  expansions : Option ℕ
  strings : List HeapString

/-- The block of `prefix`, which is `NULL` when there is nothing in front of the brace. -/
def mallocPrefix (before : CString) : Owning (Option (Option ℕ)) :=
  if before = [] then pure (some none)
  else do
    match ← malloc (grants .bracePrefix) with
    | none => pure none
    | some block => pure (some (some block))

/-- The loop of `expand_brace` over the items. When it fails it frees the expansions and their
array, but leaves the pointers to them where they are. -/
def addExpansions (before after : CString) (scratch : List ℕ) :
    List CString → ℕ → Option ℕ → List HeapString → Owning BraceOut
  | [], _, expansions, strings => do
      free scratch
      pure ⟨if 0 < strings.length then 1 else 0, expansions, strings⟩
  | item :: items, capacity, expansions, strings => do
      match ← malloc (grants .braceItem) with
      | none => do
          free scratch
          free (strings.map HeapString.block)
          free expansions.toList
          pure ⟨-1, expansions, strings⟩
      | some block =>
          if capacity ≤ strings.length then do
            match ← realloc (grants .braceGrow) expansions with
            | none => do
                free [block]
                free scratch
                free (strings.map HeapString.block)
                free expansions.toList
                pure ⟨-1, expansions, strings⟩
            | some expansions =>
                addExpansions before after scratch items (if capacity = 0 then 8 else capacity * 2)
                  (some expansions) (strings ++ [⟨block, before ++ item ++ after⟩])
          else
            addExpansions before after scratch items capacity expansions
              (strings ++ [⟨block, before ++ item ++ after⟩])

/-- `expand_brace`. -/
def expandBraceIn (pattern : CString) : Owning BraceOut :=
  match strchr pattern openBrace with
  | none => pure ⟨0, none, []⟩
  | some (before, braceStart) =>
      match strchr braceStart closeBrace with
      | none => pure ⟨0, none, []⟩
      | some (content, braceEnd) => do
          match ← mallocPrefix grants before with
          | none => pure ⟨-1, none, []⟩
          | some pre => do
              match ← malloc (grants .braceContent) with
              | none => do
                  free pre.toList
                  pure ⟨-1, none, []⟩
              | some block =>
                  addExpansions grants before braceEnd.tail (block :: pre.toList)
                    (braceItems content.tail) 0 none []

/-- The requests of a string list: for the list, for its array, and for copies of strings. -/
structure ListGrants where
  list : ℕ → Bool
  grow : ℕ → Bool
  text : ℕ → Bool

/-- A `string_list` in memory. -/
structure HeapList where
  list : ℕ
  items : Option ℕ
  capacity : ℕ
  strings : List HeapString

namespace HeapList

/-- `ensure_capacity`. The doubling ends for every count that fits an `int`. -/
def ensureCapacity (grants : ListGrants) (list : HeapList) (minCapacity : ℕ) :
    Owning (Bool × HeapList) :=
  if minCapacity ≤ list.capacity then pure (true, list)
  else do
    let newCapacity := if list.capacity = 0 then listDefaultCapacity else list.capacity
    match ← realloc grants.grow list.items with
    | none => pure (false, list)
    | some items =>
        pure (true, { list with
          items := some items
          capacity := (ListCode.growCapacity 65 newCapacity minCapacity).getD newCapacity })

/-- `string_list_create`. -/
def create (grants : ListGrants) (initialCapacity : ℕ) : Owning (Option HeapList) := do
  match ← malloc grants.list with
  | none => pure none
  | some block =>
      if 0 < initialCapacity then do
        match ← ensureCapacity grants ⟨block, none, 0, []⟩ initialCapacity with
        | (true, list) => pure (some list)
        | (false, list) => do
            free [list.list]
            pure none
      else pure (some ⟨block, none, 0, []⟩)

/-- `string_list_append`. -/
def append (grants : ListGrants) (list : HeapList) (text : CString) : Owning (Bool × HeapList) := do
  match ← ensureCapacity grants list (list.strings.length + 1) with
  | (false, list) => pure (false, list)
  | (true, list) => do
      match ← malloc grants.text with
      | none => pure (false, list)
      | some block => pure (true, { list with strings := list.strings ++ [⟨block, text⟩] })

/-- `string_list_free`. -/
def release (list : HeapList) : Owning PUnit := do
  free (list.strings.map HeapString.block)
  free list.items.toList
  free [list.list]

end HeapList

/-! ## Wildcards -/

/-- The requests of `match_list`. -/
def matchListGrants : ListGrants :=
  ⟨grants .matchList, grants .matchListGrow, grants .matchListText⟩

/-- The enumeration function of a call, its context, and what it returns when its callback cancels
it. -/
structure HeapEnv where
  env : ArgsEnv
  cancelled : EnumCall → ℤ

variable (env : HeapEnv)

/-- The enumeration function calls `wildcard_callback` for each item, until it returns `false`. -/
def reportItems (patternDir filePattern : CString) :
    List CString → HeapList → Owning (Bool × HeapList)
  | [], list => pure (true, list)
  | item :: items, list =>
      match wildcardCallback patternDir filePattern item with
      | none => reportItems patternDir filePattern items list
      | some path => do
          match ← list.append (matchListGrants grants) path with
          | (true, list) => reportItems patternDir filePattern items list
          | (false, list) => pure (false, list)

/-- The loop of `expand_wildcard` over the list, with the copies made so far. When it fails it frees
these. -/
def dupStrings : List CString → List HeapString → Owning (Option (List HeapString))
  | [], copies => pure (some copies)
  | text :: texts, copies => do
      match ← malloc (grants .matchText) with
      | none => do
          free (copies.map HeapString.block)
          pure none
      | some block => dupStrings texts (copies ++ [⟨block, text⟩])

/-- What `expand_wildcard` returns and leaves in `*matches` and `*match_count`. -/
structure MatchOut where
  ret : ℤ
  array : Option ℕ
  strings : List HeapString

/-- The matches of the list, copied into an array. -/
def copyMatches (list : HeapList) : Owning MatchOut :=
  if 0 < list.strings.length then do
    match ← malloc (grants .matchArray) with
    | none => do
        list.release
        pure ⟨-1, none, []⟩
    | some array => do
        match ← dupStrings grants (list.strings.map HeapString.text) [] with
        | none => do
            free [array]
            list.release
            pure ⟨-1, none, []⟩
        | some copies => do
            list.release
            pure ⟨0, some array, copies⟩
  else do
    list.release
    pure ⟨0, none, []⟩

/-- `expand_wildcard`. -/
def expandWildcardIn (pattern : CString) : Owning MatchOut :=
  match env.env.enumFunc with
  | none => pure ⟨0, none, []⟩
  | some enumFunc => do
      match ← HeapList.create (matchListGrants grants) 8 with
      | none => pure ⟨-1, none, []⟩
      | some list => do
          let parts := patternParts pattern
          let call := wildcardCall env.env pattern
          let (complete, list) ← reportItems grants parts.1 parts.2 (enumFunc call).items list
          if (if complete then (enumFunc call).status else env.cancelled call) = 0 then
            copyMatches grants list
          else do
            list.release
            pure ⟨-1, none, []⟩

/-- Store one string after the other, until one cannot be stored. -/
def storeAll : List HeapString → HeapArray → Owning (Bool × HeapArray)
  | [], args => pure (true, args)
  | arg :: rest, args => do
      match ← args.push (grants .argsGrow) arg with
      | (true, args) => storeAll rest args
      | (false, args) => pure (false, args)

/-- Store a text, or the files its wildcards match. The source has it twice: for an expansion of a
brace, which is freed when matches have taken its place, and for a raw word, which is not. -/
def addText (freesText : Bool) (args : HeapArray) (arg : HeapString) : Owning (Bool × HeapArray) :=
  if containsWildcard arg.text then do
    let wildcard ← expandWildcardIn grants env arg.text
    if wildcard.ret = 0 then
      if 0 < wildcard.strings.length then do
        match ← storeAll grants wildcard.strings args with
        | (true, args) => do
            free wildcard.array.toList
            free (if freesText then [arg.block] else [])
            pure (true, args)
        | (false, args) => do
            free (wildcard.strings.map HeapString.block)
            free wildcard.array.toList
            pure (false, args)
      else args.push (grants .argsGrow) arg
    else args.push (grants .argsGrow) arg
  else args.push (grants .argsGrow) arg

/-- The loop over the expansions of a brace. -/
def addTexts : List HeapString → HeapArray → Owning (Bool × HeapArray)
  | [], args => pure (true, args)
  | expanded :: rest, args => do
      match ← addText grants env true args expanded with
      | (true, args) => addTexts rest args
      | (false, args) => pure (false, args)

/-- The body of the second loop of `args_parse`. -/
def addArgIn (args : HeapArray) (arg : HeapString) : Owning (Bool × HeapArray) :=
  if containsBrace arg.text then do
    let brace ← expandBraceIn grants arg.text
    if 0 < brace.ret then do
      match ← addTexts grants env brace.strings args with
      | (true, args) => do
          free brace.expansions.toList
          free [arg.block]
          pure (true, args)
      | (false, args) => do
          free (brace.strings.map HeapString.block)
          free brace.expansions.toList
          pure (false, args)
    else do
      free (if brace.expansions.isSome then brace.strings.map HeapString.block else [])
      free brace.expansions.toList
      addText grants env false args arg
  else addText grants env false args arg

/-- The second loop of `args_parse`. When it fails it frees the arguments, the raw words that are
left, and both arrays. -/
def secondPassIn (rawBlock : ℕ) : List HeapString → HeapArray → Owning (Option HeapArray)
  | [], args => do
      free [rawBlock]
      pure (some args)
  | arg :: later, args => do
      match ← addArgIn grants env args arg with
      | (true, args) => secondPassIn rawBlock later args
      | (false, args) => do
          args.release
          free (later.map HeapString.block)
          free [rawBlock]
          pure none

/-- The `NULL` behind the arguments, in an array of one slot more if this one is full. Without one,
everything is freed. -/
def terminate (args : HeapArray) : Owning (Option HeapArray) :=
  if args.strings.capacity ≤ args.strings.items.length then do
    match ← realloc (grants .argsNull) (some args.block) with
    | none => do
        args.release
        pure none
    | some block => pure (some { args with block := block })
  else pure (some args)

/-- The first half of `args_parse`: the block of `args`, and the raw words with their array. -/
def rawArgsIn (line : CString) : Owning (Option (ℕ × HeapArray)) := do
  match ← malloc (grants .args) with
  | none => pure none
  | some block => do
      match ← malloc (grants .rawArgs) with
      | none => do
          free [block]
          pure none
      | some rawBlock => do
          match ← rawArgsLoopIn grants line.length line (.fresh rawBlock) with
          | none => do
              free [block]
              pure none
          | some raw => pure (some (block, raw))

/-- The second half of `args_parse`: its second loop, and the `NULL`. -/
def expandArgsIn (block : ℕ) (raw : HeapArray) : Owning (Option HeapArray) := do
  match ← secondPassIn grants env raw.block raw.strings.items (.fresh block) with
  | none => pure none
  | some args => terminate grants args

/-- `args_parse`: the array `*argv` with its strings, or `none` for the return value -1. -/
def argsParseIn (line : CString) : Owning (Option HeapArray) := do
  match ← rawArgsIn grants line with
  | none => pure none
  | some (block, raw) => expandArgsIn grants env block raw

/-- `args_free` of what `args_parse` has handed back, with the count as an `int`. -/
def argsFreeIn : Option HeapArray → Owning PUnit
  | none => pure ⟨⟩
  | some args => do
      free ((args.strings.items.take (toInt args.strings.items.length).toNat).map HeapString.block)
      free [args.block]

/-- The requests of the list of `args_parse_to_list`. -/
def listGrants : ListGrants := ⟨grants .list, grants .listGrow, grants .listText⟩

/-- The loop of `args_parse_to_list`. -/
def addToList : List CString → HeapList → Owning (Bool × HeapList)
  | [], list => pure (true, list)
  | text :: texts, list => do
      match ← list.append (listGrants grants) text with
      | (true, list) => addToList texts list
      | (false, list) => pure (false, list)

/-- `args_parse_to_list` behind `args_parse`. -/
def argsToList : Option HeapArray → Owning (Option HeapList)
  | none => pure none
  | some args => do
      let argc := toInt args.strings.items.length
      match ← HeapList.create (listGrants grants) (intToSize argc) with
      | none => do
          argsFreeIn (some args)
          pure none
      | some list => do
          match ← addToList grants ((args.strings.items.take argc.toNat).map HeapString.text)
              list with
          | (true, list) => do
              argsFreeIn (some args)
              pure (some list)
          | (false, list) => do
              list.release
              argsFreeIn (some args)
              pure none

/-- `args_parse_to_list`. -/
def argsParseToListIn (line : CString) : Owning (Option HeapList) := do
  let argv ← argsParseIn grants env line
  argsToList grants argv

end Parsing

end BasC
