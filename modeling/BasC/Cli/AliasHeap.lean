/-
# The memory of the aliases

A parser has an array of handlers and a map of aliases, and each alias is in four blocks: the entry
of the map, the copy of its name, the alias and the copy of its value. Here are the calls that ask
for these blocks and free them, and what is left when the parser has been freed. The only blocks
that are lost are those of aliases for which the map has no memory: `prefix_map_add` says nothing,
and `cli_parser_set_alias` returns 0.
-/

import BasC.Cli.ArgsHeap
import BasC.Util.PrefixMapEntries

namespace BasC

open Lib

/-- The places of `cli_parser.c` and `prefix_map.c` that ask for memory. -/
inductive ParserSite
  | parser | handlers | handlersGrow | map
  | aliasEntry | aliasValue | entry | key
  deriving DecidableEq

/-- Which requests are met at which place. -/
abbrev ParserGrants := ParserSite → ℕ → Bool

/-- `alias_entry_t`. -/
structure HeapAlias where
  block : ℕ
  value : HeapString

/-- The blocks of an entry of the map, and its value. -/
structure HeapEntry where
  entry : ℕ
  key : ℕ
  aliasEntry : HeapAlias

/-- `cli_parser_t`, without what its callbacks are. -/
structure HeapParser where
  block : ℕ
  handlers : ℕ
  numHandlers : ℕ
  handlersCapacity : ℕ
  aliasMap : Option (ℕ × PrefixMap HeapEntry)

/-- A call of `cli_parser.h`. -/
inductive AliasOp
  | registerHandler
  | setAlias (name value : CString)
  | getAlias (name : CString)
  | removeAlias (name : CString)
  | clearAliases
  deriving DecidableEq

/-- What a call gives back. -/
inductive AliasAnswer
  | ret (ret : ℤ)
  | value (found : Option CString)
  | done
  deriving DecidableEq

/-- `free_alias_entry`. -/
def freeAliasEntry (aliasEntry : HeapAlias) : Owning PUnit := do
  free [aliasEntry.value.block]
  free [aliasEntry.block]

/-- What `prefix_map_remove` and `prefix_map_clear` free with an entry. -/
def freeEntry (entry : HeapEntry) : Owning PUnit := do
  freeAliasEntry entry.aliasEntry
  free [entry.key]
  free [entry.entry]

section Calls

variable (grants : ParserGrants)

/-- `prefix_map_add`; `none` without memory for the key, when the `NULL` in its place is an argument
of `strcmp`. -/
def prefixMapAddIn (map : PrefixMap HeapEntry) (key : CString) (aliasEntry : HeapAlias) :
    Owning (Option (PrefixMap HeapEntry)) :=
  match map.get key with
  | some existing => do
      freeAliasEntry existing.aliasEntry
      pure (some (map.add key { existing with aliasEntry := aliasEntry }))
  | none => do
      match ← malloc (grants .entry) with
      | none => pure (some map)
      | some entry =>
          match ← malloc (grants .key) with
          | none => pure none
          | some keyBlock => pure (some (map.add key ⟨entry, keyBlock, aliasEntry⟩))

/-- `prefix_map_remove`. -/
def prefixMapRemoveIn (map : PrefixMap HeapEntry) (key : CString) :
    Owning (PrefixMap HeapEntry) :=
  match map.get key with
  | none => pure map
  | some existing => do
      freeEntry existing
      pure (map.remove key).2

/-- `prefix_map_clear`. -/
def prefixMapClearIn (map : PrefixMap HeapEntry) : Owning (PrefixMap HeapEntry) := do
  map.entries.forM fun entry => freeEntry entry.value
  pure map.clear

/-- `cli_parser_create`. -/
def cliParserCreateIn (hasResolver : Bool) : Owning (Option HeapParser) := do
  match ← malloc (grants .parser) with
  | none => pure none
  | some block =>
      match ← malloc (grants .handlers) with
      | none => do
          free [block]
          pure none
      | some handlers =>
          if hasResolver then pure (some ⟨block, handlers, 0, 16, none⟩)
          else do
            match ← malloc (grants .map) with
            | none => do
                free [handlers]
                free [block]
                pure none
            | some map => pure (some ⟨block, handlers, 0, 16, some (map, .create)⟩)

/-- `cli_parser_free`. -/
def cliParserFreeIn (parser : HeapParser) : Owning PUnit := do
  free [parser.handlers]
  match parser.aliasMap with
  | none => free [parser.block]
  | some (block, map) => do
      let _ ← prefixMapClearIn map
      free [block]
      free [parser.block]

/-- `cli_parser_register_handler`; `none` when `new_capacity` is no `int` any longer. -/
def registerHandlerIn (parser : HeapParser) : Owning (Option (ℤ × HeapParser)) :=
  if parser.numHandlers < parser.handlersCapacity then
    pure (some (0, { parser with numHandlers := parser.numHandlers + 1 }))
  else if intMax < (parser.handlersCapacity * 2 : ℕ) then pure none
  else do
    match ← realloc (grants .handlersGrow) (some parser.handlers) with
    | none => pure (some (-1, parser))
    | some handlers =>
        pure (some (0, { parser with
          handlers := handlers
          numHandlers := parser.numHandlers + 1
          handlersCapacity := parser.handlersCapacity * 2 }))

/-- `cli_parser_set_alias`. -/
def setAliasIn (parser : HeapParser) (name value : CString) : Owning (Option (ℤ × HeapParser)) :=
  match parser.aliasMap with
  | none => pure (some (-1, parser))
  | some (block, map) => do
      match ← malloc (grants .aliasEntry) with
      | none => pure (some (-1, parser))
      | some aliasEntry =>
          match ← malloc (grants .aliasValue) with
          | none => do
              free [aliasEntry]
              pure (some (-1, parser))
          | some valueBlock => do
              let added ← prefixMapAddIn grants map name ⟨aliasEntry, ⟨valueBlock, value⟩⟩
              pure (added.map fun map => (0, { parser with aliasMap := some (block, map) }))

/-- `cli_parser_get_alias`: the text of the pointer that it gives. -/
def getAliasIn (resolver : Option (CString → Option CString)) (parser : HeapParser)
    (name : CString) : Option CString :=
  match resolver, parser.aliasMap with
  | some resolver, none => resolver name
  | _, some (_, map) => (map.get name).map fun entry => entry.aliasEntry.value.text
  | none, none => none

/-- `cli_parser_remove_alias`. -/
def removeAliasIn (parser : HeapParser) (name : CString) : Owning (ℤ × HeapParser) :=
  match parser.aliasMap with
  | none => pure (-1, parser)
  | some (block, map) =>
      if map.contains name then do
        let map ← prefixMapRemoveIn map name
        pure (0, { parser with aliasMap := some (block, map) })
      else pure (-1, parser)

/-- `cli_parser_clear_aliases`. -/
def clearAliasesIn (parser : HeapParser) : Owning HeapParser :=
  match parser.aliasMap with
  | none => pure parser
  | some (block, map) => do
      let map ← prefixMapClearIn map
      pure { parser with aliasMap := some (block, map) }

variable (resolver : Option (CString → Option CString))

/-- One call. -/
def aliasOpIn (parser : HeapParser) : AliasOp → Owning (Option (AliasAnswer × HeapParser))
  | .registerHandler => do
      let out ← registerHandlerIn grants parser
      pure (out.map fun out => (.ret out.1, out.2))
  | .setAlias name value => do
      let out ← setAliasIn grants parser name value
      pure (out.map fun out => (.ret out.1, out.2))
  | .getAlias name => pure (some (.value (getAliasIn resolver parser name), parser))
  | .removeAlias name => do
      let out ← removeAliasIn parser name
      pure (some (.ret out.1, out.2))
  | .clearAliases => do
      let parser ← clearAliasesIn parser
      pure (some (.done, parser))

/-- One call after the other. -/
def aliasOpsIn :
    List AliasOp → HeapParser → Owning (Option (List AliasAnswer × HeapParser))
  | [], parser => pure (some ([], parser))
  | call :: calls, parser => do
      match ← aliasOpIn grants resolver parser call with
      | none => pure none
      | some out => do
          let rest ← aliasOpsIn calls out.2
          pure (rest.map fun rest => (out.1 :: rest.1, rest.2))

/-- A parser from its creation to its end. -/
def aliasSessionIn (calls : List AliasOp) : Owning (Option (List AliasAnswer)) := do
  match ← cliParserCreateIn grants resolver.isSome with
  | none => pure (some [])
  | some parser =>
      match ← aliasOpsIn grants resolver calls parser with
      | none => pure none
      | some out => do
          cliParserFreeIn out.2
          pure (some out.1)

end Calls

/-- What can be seen of a parser, and how many requests have been made. -/
structure AliasState where
  numHandlers : ℕ
  handlersCapacity : ℕ
  aliasMap : Option (PrefixMap CString)
  asked : ℕ

/-- What a call answers, the values of the aliases that it loses, and the state behind it. -/
structure AliasOut where
  answer : AliasAnswer
  lost : List CString
  state : AliasState

section Requests

variable (grants : ParserGrants)

/-- `prefix_map_add`: the map, the values that it loses for want of an entry, and the number of
requests behind it. -/
def prefixMapAddAt (map : PrefixMap CString) (key value : CString) (asked : ℕ) :
    PrefixMap CString × List CString × ℕ :=
  if map.contains key then (map.add key value, [], asked)
  else if grants .entry asked then (map.add key value, [], asked + 2)
  else (map, [value], asked + 1)

/-- `cli_parser_set_alias`. It returns 0 whether `prefix_map_add` had an entry or not. -/
def setAliasAt (state : AliasState) (name value : CString) : AliasOut :=
  match state.aliasMap with
  | none => ⟨.ret (-1), [], state⟩
  | some map =>
      if grants .aliasEntry state.asked then
        if grants .aliasValue (state.asked + 1) then
          let added := prefixMapAddAt grants map name value (state.asked + 2)
          ⟨.ret 0, added.2.1, { state with aliasMap := some added.1, asked := added.2.2 }⟩
        else ⟨.ret (-1), [], { state with asked := state.asked + 2 }⟩
      else ⟨.ret (-1), [], { state with asked := state.asked + 1 }⟩

/-- `cli_parser_register_handler`. -/
def registerHandlerAt (state : AliasState) : AliasOut :=
  if state.numHandlers < state.handlersCapacity then
    ⟨.ret 0, [], { state with numHandlers := state.numHandlers + 1 }⟩
  else if grants .handlersGrow state.asked then
    ⟨.ret 0, [], { state with
      numHandlers := state.numHandlers + 1
      handlersCapacity := state.handlersCapacity * 2
      asked := state.asked + 1 }⟩
  else ⟨.ret (-1), [], { state with asked := state.asked + 1 }⟩

variable (resolver : Option (CString → Option CString))

/-- One call, when just the requests are met that are granted. -/
def aliasOpAt (state : AliasState) : AliasOp → AliasOut
  | .registerHandler => registerHandlerAt grants state
  | .setAlias name value => setAliasAt grants state name value
  | .getAlias name =>
      ⟨.value (state.aliasMap.elim (resolver.bind fun resolver => resolver name)
        fun map => map.get name), [], state⟩
  | .removeAlias name =>
      state.aliasMap.elim ⟨.ret (-1), [], state⟩ fun map =>
        if map.contains name then
          ⟨.ret 0, [], { state with aliasMap := some (map.remove name).2 }⟩
        else ⟨.ret (-1), [], state⟩
  | .clearAliases => ⟨.done, [], { state with aliasMap := state.aliasMap.map PrefixMap.clear }⟩

/-- One call after the other. -/
def aliasOpsAt : List AliasOp → AliasState → List AliasOut
  | [], _ => []
  | call :: calls, state =>
      aliasOpAt grants resolver state call ::
        aliasOpsAt calls (aliasOpAt grants resolver state call).state

/-- A parser that has been created after so many requests. -/
def cliParserCreateAt (asked : ℕ) : Option AliasState :=
  if grants .parser asked && grants .handlers (asked + 1) then
    if resolver.isSome then some ⟨0, 16, none, asked + 2⟩
    else if grants .map (asked + 2) then some ⟨0, 16, some .create, asked + 3⟩
    else none
  else none

/-- A parser from its creation to its end. -/
def aliasSessionAt (calls : List AliasOp) (asked : ℕ) : List AliasOut :=
  (cliParserCreateAt grants resolver asked).elim [] (aliasOpsAt grants resolver calls)

end Requests

/-- What a call answers, and the map behind it, when each request is met. -/
def aliasOp (resolver : Option (CString → Option CString))
    (aliasMap : Option (PrefixMap CString)) :
    AliasOp → AliasAnswer × Option (PrefixMap CString)
  | .registerHandler => (.ret 0, aliasMap)
  | .setAlias name value =>
      aliasMap.elim (.ret (-1), none) fun map => (.ret 0, some (map.add name value))
  | .getAlias name =>
      (.value (aliasMap.elim (resolver.bind fun resolver => resolver name) fun map => map.get name),
        aliasMap)
  | .removeAlias name =>
      aliasMap.elim (.ret (-1), none) fun map =>
        if map.contains name then (.ret 0, some (map.remove name).2) else (.ret (-1), some map)
  | .clearAliases => (.done, aliasMap.map PrefixMap.clear)

/-- The answers of a sequence of calls. -/
def aliasOps (resolver : Option (CString → Option CString)) :
    List AliasOp → Option (PrefixMap CString) → List AliasAnswer
  | [], _ => []
  | call :: calls, aliasMap =>
      (aliasOp resolver aliasMap call).1 ::
        aliasOps resolver calls (aliasOp resolver aliasMap call).2

end BasC
