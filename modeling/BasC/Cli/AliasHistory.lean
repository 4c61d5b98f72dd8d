/-
# Aliases without their history

The alias map of a parser is a hash table, and the order of its chains depends on what has been
added and removed before. Nobody sees that: from two maps that answer every look-up alike, a
parser does the same with every call, as long as its callbacks do. Only an enumeration may
come in another order.
-/

import BasC.Cli.Runs
import BasC.Util.PrefixMapRuns

namespace BasC

open CChar Lib Traced

variable {σ : Type}

/-- The maps are well-formed and answer alike, or there are none. -/
def SameAliases : Option (PrefixMap CString) → Option (PrefixMap CString) → Prop
  | none, none => True
  | some map, some map' => map.WellFormed ∧ map'.WellFormed ∧ ∀ key, map.get key = map'.get key
  | _, _ => False

/-- The worlds differ at most in the order of their aliases. -/
def World.Alike (world world' : World σ) : Prop :=
  SameAliases world.aliasMap world'.aliasMap ∧ world.user = world'.user

/-- In alike worlds the callback gives the same answer, and leaves alike worlds. -/
def RespectsAliases {α : Type} (callback : World σ → α × World σ) : Prop :=
  ∀ world world', world.Alike world' →
    (callback world).1 = (callback world').1 ∧ (callback world).2.Alike (callback world').2

/-- The handler asks the alias map nothing but look-ups. -/
structure Handler.RespectsAliases (handler : Handler σ) : Prop where
  canHandle : ∀ canHandle, handler.canHandle = some canHandle →
    ∀ command, BasC.RespectsAliases (canHandle command)
  handle : ∀ command redir, BasC.RespectsAliases (handler.handle command redir)

/-- So do all callbacks of the parser. -/
structure Parser.RespectsAliases (parser : Parser σ) : Prop where
  handlers : ∀ handler ∈ parser.handlers, handler.RespectsAliases
  aliasResolver : ∀ resolver, parser.aliasResolver = some resolver →
    ∀ name, BasC.RespectsAliases (resolver name)
  argsParser : ∀ text, BasC.RespectsAliases (parser.argsParser text)
  errorCallback : ∀ callback, parser.errorCallback = some callback → ∀ message world world',
    world.Alike world' → (callback message world).Alike (callback message world')

theorem respectsAliases_argsParser (env : ArgsEnv) (text : CString) :
    RespectsAliases (defaultArgsParser env text : World σ → ArgsOut × World σ) :=
  fun _ _ halike => ⟨rfl, halike⟩

section Line

variable {limits : Limits} {parser : Parser σ} (hparser : parser.RespectsAliases)

theorem respects_copyInto (limits : Limits) (buffer : Buffer) (text : CString) :
    (copyInto limits buffer text : Cli σ CString).Respects World.Alike :=
  respects_bind (respects_emit _) fun _ => respects_pure _

include hparser

theorem respects_emitError (message : CString) :
    (emitError parser message).Respects World.Alike := by
  refine respects_bind (respects_emit _) fun _ => ?_
  cases hcallback : parser.errorCallback with
  | none => exact respects_pure _
  | some callback =>
      exact respects_update fun world world' halike =>
        ⟨rfl, hparser.errorCallback callback hcallback message world world' halike⟩

theorem respects_parseArgs (site : ParseSite) (text : CString) :
    (parseArgs parser site text).Respects World.Alike :=
  respects_bind (respects_update (hparser.argsParser text)) fun _ =>
    respects_bind (respects_emit _) fun _ => respects_pure _

omit hparser in
theorem respects_assign (stores : List Store) :
    (assign stores : Cli σ PUnit).Respects World.Alike := by
  induction stores with
  | nil => exact respects_pure _
  | cons store stores ih =>
      unfold assign
      split
      · exact respects_bind (respects_emit _) fun _ => ih
      · exact respects_halt _

theorem respects_startCommand (cmdName : CString) (args : Option CString) :
    (startCommand parser cmdName args).Respects World.Alike := by
  have hargs : (parseArguments parser args).Respects World.Alike := by
    cases args with
    | none => exact respects_pure _
    | some text => exact respects_parseArgs hparser .arguments text
  refine respects_bind hargs fun out => ?_
  unfold fillCommand
  split
  · exact respects_bind (respects_emitError hparser _) fun _ => respects_pure _
  · exact respects_bind (respects_assign _) fun _ => respects_pure _

/-- The one place where the parser reads the map. -/
theorem respects_lookupAlias (name : CString) :
    (lookupAlias parser name).Respects World.Alike := by
  intro world world' halike
  have hsame := halike.1
  rw [lookupAlias, trace_bind, trace_bind, result_bind, result_bind]
  simp only [trace_current, result_current, Option.elim_some, Option.bind_some]
  cases hmap : world.aliasMap with
  | none =>
      rw [hmap] at hsame
      cases hmap' : world'.aliasMap with
      | some map' =>
          rw [hmap'] at hsame
          cases hsame
      | none =>
          cases hresolver : parser.aliasResolver with
          | none => exact ⟨rfl, .some ⟨rfl, halike⟩⟩
          | some resolver =>
              exact ⟨rfl, .some (hparser.aliasResolver resolver hresolver name _ _ halike)⟩
  | some map =>
      rw [hmap] at hsame
      cases hmap' : world'.aliasMap with
      | none =>
          rw [hmap'] at hsame
          cases hsame
      | some map' =>
          rw [hmap'] at hsame
          cases parser.aliasResolver with
          | none => exact ⟨rfl, .some ⟨hsame.2.2 name, halike⟩⟩
          | some resolver => exact ⟨rfl, .some ⟨hsame.2.2 name, halike⟩⟩

theorem respects_expandAlias (value : CString) (st : Expanding) :
    (expandAlias limits parser value st).Respects World.Alike := by
  refine respects_bind (respects_emit _) fun _ => ?_
  refine respects_bind (respects_parseArgs hparser _ _) fun out => ?_
  unfold rebuildCommand
  split
  · exact respects_bind (respects_emitError hparser _) fun _ => respects_pure _
  · split
    · exact respects_bind (respects_emitError hparser _) fun _ => respects_pure _
    · refine respects_bind (respects_copyInto _ _ _) fun cmdName => ?_
      exact respects_bind (respects_assign _) fun _ => respects_pure _

theorem respects_expandAliases (left : ℕ) (st : Expanding) :
    (expandAliases limits parser left st).Respects World.Alike := by
  induction left generalizing st with
  | zero => exact respects_bind (respects_emitError hparser _) fun _ => respects_pure _
  | succ left ih =>
      refine respects_bind (respects_lookupAlias hparser _) fun found => ?_
      split
      · exact respects_pure _
      · refine respects_bind (respects_expandAlias hparser _ st) fun next => ?_
        cases next with
        | none => exact respects_pure _
        | some next => exact ih next

theorem respects_prepareStatement (statement : CString) :
    (prepareStatement limits parser statement).Respects World.Alike := by
  unfold prepareStatement
  split
  · exact respects_pure _
  · split
    · exact respects_pure _
    · refine respects_bind (respects_copyInto _ _ _) fun cmdCopy => ?_
      refine respects_bind (respects_copyInto _ _ _) fun cmdName => ?_
      split
      · exact respects_pure _
      · refine respects_bind (respects_startCommand hparser _ _) fun started => ?_
        cases started with
        | none => exact respects_pure _
        | some st =>
            refine respects_bind (respects_expandAliases hparser _ st) fun command => ?_
            cases command with
            | none => exact respects_pure _
            | some command => exact respects_pure _

omit hparser in
theorem respects_tryHandlers {handlers : List (Handler σ)}
    (hhandlers : ∀ handler ∈ handlers, handler.RespectsAliases) (command : Command)
    (redir : Redirection) (index : ℕ) :
    (tryHandlers command redir index handlers).Respects World.Alike := by
  induction handlers generalizing index with
  | nil => exact respects_pure _
  | cons handler handlers ih =>
      obtain ⟨hhandler, hrest⟩ := List.forall_mem_cons.mp hhandlers
      unfold tryHandlers
      cases hcan : handler.canHandle with
      | none => exact ih hrest (index + 1)
      | some canHandle =>
          refine respects_bind (respects_emit _) fun _ => ?_
          refine respects_bind (respects_update (hhandler.canHandle _ hcan command))
            fun accepted => ?_
          split
          · refine respects_bind (respects_emit _) fun _ => ?_
            exact respects_bind (respects_update (hhandler.handle command redir)) fun _ =>
              respects_pure _
          · exact ih hrest (index + 1)

theorem respects_executeStatement (statement : CString) :
    (executeStatement limits parser statement).Respects World.Alike := by
  refine respects_bind (respects_prepareStatement hparser statement) fun prepared => ?_
  cases prepared with
  | ends ret => exact respects_pure _
  | ready command redir =>
      refine respects_bind (respects_tryHandlers hparser.handlers command redir 0) fun out => ?_
      cases out with
      | some result => exact respects_pure _
      | none => exact respects_bind (respects_emitError hparser _) fun _ => respects_pure _

theorem respects_statementLoop (statementStart : CString) :
    (statementLoop limits parser statementStart).Respects World.Alike := by
  fun_induction statementLoop limits parser statementStart with
  | case1 statementStart statement statementEnd hfound ih =>
      refine respects_bind (respects_copyInto _ _ _) fun singleStatement => ?_
      refine respects_bind (respects_executeStatement hparser _) fun result => ?_
      split
      · exact respects_pure _
      · exact ih
  | case2 statementStart hfound =>
      refine respects_bind (respects_copyInto _ _ _) fun singleStatement => ?_
      refine respects_bind (respects_executeStatement hparser _) fun result => ?_
      split <;> exact respects_pure _

/-- **A line does the same from alike worlds.** -/
theorem respects_parseLine (line : CString) :
    (parseLine limits parser line).Respects World.Alike := by
  unfold parseLine
  split
  · exact respects_pure _
  · exact respects_bind (respects_copyInto _ _ _) fun lineCopy =>
      respects_statementLoop hparser lineCopy

end Line

/-! ## The calls of the parser -/

/-- `cli_parser_t`. -/
structure CliParser (σ : Type) where
  handlers : List (Handler σ)
  handlersCapacity : ℕ
  aliasResolver : Option (CString → World σ → Option CString × World σ)
  argsParser : ArgsEnv → CString → World σ → ArgsOut × World σ
  env : ArgsEnv
  errorCallback : Option (CString → World σ → World σ)
  world : World σ

namespace CliParser

/-- `INITIAL_HANDLERS_CAPACITY`. -/
def initialHandlersCapacity : ℕ := 16

/-- `cli_parser_create`. There is an alias map if there is no external resolver. -/
def create (aliasResolver : Option (CString → World σ → Option CString × World σ))
    (argsParser : Option (ArgsEnv → CString → World σ → ArgsOut × World σ)) (user : σ) :
    CliParser σ where
  handlers := []
  handlersCapacity := initialHandlersCapacity
  aliasResolver := aliasResolver
  argsParser := argsParser.getD defaultArgsParser
  env := bareEnv
  errorCallback := none
  world := ⟨if aliasResolver.isNone then some .create else none, user⟩

/-- The parser that runs a line. -/
def parser (cli : CliParser σ) : Parser σ :=
  ⟨cli.handlers, cli.aliasResolver, cli.argsParser cli.env, cli.errorCallback⟩

end CliParser

/-- A call of one of the functions of `cli_parser.h`, and whether its allocations succeed: for an
alias those of the alias, and that of an entry of the map. -/
inductive ParserCall (σ : Type)
  | registerHandler (handler : Handler σ) (allocates : Bool)
  | setErrorCallback (callback : Option (CString → World σ → World σ))
  | setArgsContext (env : ArgsEnv)
  | setAlias (name value : CString) (allocates links : Bool)
  | getAlias (name : CString)
  | removeAlias (name : CString)
  | enumerateAliases
  | clearAliases
  | parseLine (line : CString)

/-- What a call gives back. -/
inductive ParserOut
  | done
  | ret (ret : ℤ)
  | value (found : Option CString)
  /-- The names and values that an enumeration calls back with, in its order. -/
  | visited (aliases : List (CString × CString))
  | ran (events : List Event) (ret : ℤ)

/-- `cli_parser_register_handler`; `none` when `new_capacity` is no `int` any longer. -/
def registerHandler (cli : CliParser σ) (handler : Handler σ) (allocates : Bool) :
    Option (ℤ × CliParser σ) :=
  if cli.handlers.length < cli.handlersCapacity then
    some (0, { cli with handlers := cli.handlers ++ [handler] })
  else if intMax < (cli.handlersCapacity * 2 : ℕ) then none
  else if allocates then
    some (0, { cli with
      handlers := cli.handlers ++ [handler]
      handlersCapacity := cli.handlersCapacity * 2 })
  else some (-1, cli)

/-- Replace the alias map. -/
def CliParser.setMap (cli : CliParser σ) (map : PrefixMap CString) : CliParser σ :=
  { cli with world := { cli.world with aliasMap := some map } }

/-- `cli_parser_set_alias`. Without memory for an entry `prefix_map_add` does nothing, and nobody
is told. -/
def setAlias (cli : CliParser σ) (name value : CString) (allocates links : Bool) :
    ℤ × CliParser σ :=
  match cli.world.aliasMap with
  | none => (-1, cli)
  | some map =>
      if allocates then
        (0, if links || map.contains name then cli.setMap (map.add name value) else cli)
      else (-1, cli)

/-- `cli_parser_get_alias`. -/
def getAlias (cli : CliParser σ) (name : CString) : Option CString × CliParser σ :=
  match cli.aliasResolver, cli.world.aliasMap with
  | some resolver, none =>
      ((resolver name cli.world).1, { cli with world := (resolver name cli.world).2 })
  | _, some map => (map.get name, cli)
  | none, none => (none, cli)

/-- `cli_parser_remove_alias`. -/
def removeAlias (cli : CliParser σ) (name : CString) : ℤ × CliParser σ :=
  match cli.world.aliasMap with
  | none => (-1, cli)
  | some map => if map.contains name then (0, cli.setMap (map.remove name).2) else (-1, cli)

/-- `cli_parser_enumerate_aliases`: the calls of the callback. -/
def enumerateAliases (cli : CliParser σ) : List (CString × CString) :=
  match cli.world.aliasMap with
  | none => []
  | some map => map.entries.map fun entry => (entry.key, entry.value)

/-- `cli_parser_clear_aliases`. -/
def clearAliases (cli : CliParser σ) : CliParser σ :=
  match cli.world.aliasMap with
  | none => cli
  | some map => cli.setMap map.clear

/-- One call; `none` where it does what is undefined. -/
def parserStep (cli : CliParser σ) : ParserCall σ → Option (ParserOut × CliParser σ)
  | .registerHandler handler allocates =>
      (registerHandler cli handler allocates).map fun out => (.ret out.1, out.2)
  | .setErrorCallback callback => some (.done, { cli with errorCallback := callback })
  | .setArgsContext env => some (.done, { cli with env := env })
  | .setAlias name value allocates links =>
      some (.ret (setAlias cli name value allocates links).1,
        (setAlias cli name value allocates links).2)
  | .getAlias name => some (.value (getAlias cli name).1, (getAlias cli name).2)
  | .removeAlias name => some (.ret (removeAlias cli name).1, (removeAlias cli name).2)
  | .enumerateAliases => some (.visited (enumerateAliases cli), cli)
  | .clearAliases => some (.done, clearAliases cli)
  | .parseLine line =>
      ((BasC.parseLine .source cli.parser line).result cli.world).map fun out =>
        (.ran ((BasC.parseLine .source cli.parser line).trace cli.world) out.1,
          { cli with world := out.2 })

/-! ## Runs of calls -/

/-- The parsers differ at most in the order of their aliases, and their callbacks respect that. -/
structure CliParser.Alike (cli cli' : CliParser σ) : Prop where
  world : cli.world.Alike cli'.world
  rest : cli' = { cli with world := cli'.world }
  respects : ∀ env, ({ cli with env := env } : CliParser σ).parser.RespectsAliases

/-- The callbacks of a call ask the alias map nothing but look-ups. -/
def ParserCall.RespectsAliases : ParserCall σ → Prop
  | .registerHandler handler _ => handler.RespectsAliases
  | .setErrorCallback callback => ∀ given, callback = some given → ∀ message world world',
      world.Alike world' → (given message world).Alike (given message world')
  | _ => True

/-- The same answer, or the same aliases in another order. -/
inductive ParserOut.Alike : ParserOut → ParserOut → Prop
  | same (out : ParserOut) : Alike out out
  | visited {aliases aliases' : List (CString × CString)} (hperm : aliases.Perm aliases') :
      Alike (.visited aliases) (.visited aliases')

/-- Two well-formed maps that answer alike have the same entries. -/
theorem entries_perm {map map' : PrefixMap CString} (hmap : map.WellFormed)
    (hmap' : map'.WellFormed) (hget : ∀ key, map.get key = map'.get key) :
    map.entries.Perm map'.entries := by
  refine (List.perm_ext_iff_of_nodup hmap.distinct.of_map hmap'.distinct.of_map).mpr ?_
  rintro ⟨key, value⟩
  rw [← hmap.get_eq_some_iff, ← hmap'.get_eq_some_iff, hget]

theorem RespectsAliases.of_env {cli cli' : CliParser σ} (halike : cli.Alike cli') :
    cli.parser.RespectsAliases ∧ cli'.parser = cli.parser := by
  have hparser : cli'.parser = cli.parser := by
    rw [halike.rest]
    rfl
  exact ⟨halike.respects cli.env, hparser⟩

/-- A change of the alias maps that keeps them alike. -/
theorem CliParser.Alike.setMap {cli cli' : CliParser σ} (halike : cli.Alike cli')
    {map map' : PrefixMap CString} (hsame : SameAliases (some map) (some map')) :
    (cli.setMap map).Alike (cli'.setMap map') where
  world := ⟨hsame, halike.world.2⟩
  rest := by
    rw [halike.rest]
    simp only [CliParser.setMap]
  respects := halike.respects

/-- The maps of alike parsers. -/
theorem CliParser.Alike.maps {cli cli' : CliParser σ} (halike : cli.Alike cli') :
    (cli.world.aliasMap = none ∧ cli'.world.aliasMap = none) ∨
      ∃ map map', cli.world.aliasMap = some map ∧ cli'.world.aliasMap = some map' ∧
        SameAliases (some map) (some map') := by
  have hsame := halike.world.1
  cases hmap : cli.world.aliasMap with
  | none =>
      cases hmap' : cli'.world.aliasMap with
      | none => exact .inl ⟨rfl, rfl⟩
      | some map' =>
          rw [hmap, hmap'] at hsame
          cases hsame
  | some map =>
      cases hmap' : cli'.world.aliasMap with
      | none =>
          rw [hmap, hmap'] at hsame
          cases hsame
      | some map' =>
          rw [hmap, hmap'] at hsame
          exact .inr ⟨map, map', rfl, rfl, hsame⟩

theorem SameAliases.add {map map' : PrefixMap CString}
    (hsame : SameAliases (some map) (some map')) (name value : CString) :
    SameAliases (some (map.add name value)) (some (map'.add name value)) := by
  refine ⟨hsame.1.add name value, hsame.2.1.add name value, fun key => ?_⟩
  rw [PrefixMap.get_add, PrefixMap.get_add, hsame.2.2]

theorem SameAliases.remove {map map' : PrefixMap CString}
    (hsame : SameAliases (some map) (some map')) (name : CString) :
    SameAliases (some (map.remove name).2) (some (map'.remove name).2) := by
  refine ⟨hsame.1.remove name, hsame.2.1.remove name, fun key => ?_⟩
  rw [hsame.1.get_remove, hsame.2.1.get_remove, hsame.2.2]

/-- Two calls are undefined, or they answer alike and leave alike parsers. -/
abbrev OutsAlike (out out' : Option (ParserOut × CliParser σ)) : Prop :=
  Option.Rel (fun out out' => out.1.Alike out'.1 ∧ out.2.Alike out'.2) out out'

section Calls

variable {cli cli' : CliParser σ} (halike : cli.Alike cli')

include halike

theorem registerHandler_alike {handler : Handler σ} (hhandler : handler.RespectsAliases)
    (allocates : Bool) :
    OutsAlike (parserStep cli (.registerHandler handler allocates))
      (parserStep cli' (.registerHandler handler allocates)) := by
  have hrest := halike.rest
  have hhandlers : cli'.handlers = cli.handlers := by rw [hrest]
  have hcapacity : cli'.handlersCapacity = cli.handlersCapacity := by rw [hrest]
  have hmore : ∀ env, ∀ capacity, ({ cli with
      handlers := cli.handlers ++ [handler]
      handlersCapacity := capacity
      env := env } : CliParser σ).parser.RespectsAliases := by
    intro env capacity
    obtain ⟨hold, hresolver, hargs, herror⟩ := halike.respects env
    refine ⟨fun given hgiven => ?_, hresolver, hargs, herror⟩
    rcases List.mem_append.mp hgiven with hgiven | hgiven
    · exact hold given hgiven
    · exact List.mem_singleton.mp hgiven ▸ hhandler
  simp only [parserStep, registerHandler, hhandlers, hcapacity]
  split_ifs
  · refine .some ⟨.same _, halike.world, ?_, fun env => hmore env _⟩
    rw [hrest]
  · exact .none
  · refine .some ⟨.same _, halike.world, ?_, fun env => hmore env _⟩
    rw [hrest]
  · exact .some ⟨.same _, halike⟩

theorem setErrorCallback_alike {callback : Option (CString → World σ → World σ)}
    (hcallback : (ParserCall.setErrorCallback callback).RespectsAliases) :
    OutsAlike (parserStep cli (.setErrorCallback callback))
      (parserStep cli' (.setErrorCallback callback)) := by
  refine .some ⟨.same _, halike.world, ?_, fun env => ?_⟩
  · rw [halike.rest]
  · obtain ⟨hhandlers, hresolver, hargs, -⟩ := halike.respects env
    exact ⟨hhandlers, hresolver, hargs, hcallback⟩

theorem setArgsContext_alike (env : ArgsEnv) :
    OutsAlike (parserStep cli (.setArgsContext env)) (parserStep cli' (.setArgsContext env)) := by
  refine .some ⟨.same _, halike.world, ?_, halike.respects⟩
  rw [halike.rest]

theorem setAlias_alike (name value : CString) (allocates links : Bool) :
    OutsAlike (parserStep cli (.setAlias name value allocates links))
      (parserStep cli' (.setAlias name value allocates links)) := by
  rcases halike.maps with ⟨hmap, hmap'⟩ | ⟨map, map', hmap, hmap', hsame⟩
  · simp only [parserStep, setAlias, hmap, hmap']
    exact .some ⟨.same _, halike⟩
  · have hcontains : map'.contains name = map.contains name := by
      rw [PrefixMap.contains, PrefixMap.contains, hsame.2.2]
    simp only [parserStep, setAlias, hmap, hmap', hcontains]
    cases allocates with
    | true =>
        cases links || map.contains name with
        | true => exact .some ⟨.same _, halike.setMap (hsame.add name value)⟩
        | false => exact .some ⟨.same _, halike⟩
    | false => exact .some ⟨.same _, halike⟩

theorem getAlias_alike (name : CString) :
    OutsAlike (parserStep cli (.getAlias name)) (parserStep cli' (.getAlias name)) := by
  have hrest := halike.rest
  have hresolver : cli'.aliasResolver = cli.aliasResolver := by rw [hrest]
  rcases halike.maps with ⟨hmap, hmap'⟩ | ⟨map, map', hmap, hmap', hsame⟩
  · cases hgiven : cli.aliasResolver with
    | none =>
        simp only [parserStep, getAlias, hmap, hmap', hresolver, hgiven]
        exact .some ⟨.same _, halike⟩
    | some resolver =>
        obtain ⟨hvalue, hworld⟩ := (RespectsAliases.of_env halike).1.aliasResolver resolver hgiven
          name _ _ halike.world
        have hout : getAlias cli name =
            ((resolver name cli.world).1,
              { cli with world := (resolver name cli.world).2 }) := by
          simp only [getAlias, hmap, hgiven]
        have hout' : getAlias cli' name = ((resolver name cli'.world).1,
            { cli' with world := (resolver name cli'.world).2 }) := by
          simp only [getAlias, hmap', hresolver, hgiven]
        rw [parserStep, parserStep, hout, hout', hvalue]
        refine .some ⟨.same _, hworld, ?_, halike.respects⟩
        rw [hrest]
  · have hvalue : (getAlias cli' name).1 = (getAlias cli name).1 ∧
        (getAlias cli name).2 = cli ∧ (getAlias cli' name).2 = cli' := by
      cases hgiven : cli.aliasResolver <;>
        simp [getAlias, hmap, hmap', hresolver, hgiven, hsame.2.2 name]
    simp only [parserStep, hvalue]
    exact .some ⟨.same _, halike⟩

theorem removeAlias_alike (name : CString) :
    OutsAlike (parserStep cli (.removeAlias name)) (parserStep cli' (.removeAlias name)) := by
  rcases halike.maps with ⟨hmap, hmap'⟩ | ⟨map, map', hmap, hmap', hsame⟩
  · simp only [parserStep, removeAlias, hmap, hmap']
    exact .some ⟨.same _, halike⟩
  · have hcontains : map'.contains name = map.contains name := by
      rw [PrefixMap.contains, PrefixMap.contains, hsame.2.2]
    simp only [parserStep, removeAlias, hmap, hmap', hcontains]
    cases map.contains name with
    | true => exact .some ⟨.same _, halike.setMap (hsame.remove name)⟩
    | false => exact .some ⟨.same _, halike⟩

theorem enumerateAliases_alike :
    OutsAlike (parserStep cli .enumerateAliases) (parserStep cli' .enumerateAliases) := by
  rcases halike.maps with ⟨hmap, hmap'⟩ | ⟨map, map', hmap, hmap', hsame⟩
  · simp only [parserStep, enumerateAliases, hmap, hmap']
    exact .some ⟨.same _, halike⟩
  · simp only [parserStep, enumerateAliases, hmap, hmap']
    exact .some ⟨.visited ((entries_perm hsame.1 hsame.2.1 hsame.2.2).map _), halike⟩

theorem clearAliases_alike :
    OutsAlike (parserStep cli .clearAliases) (parserStep cli' .clearAliases) := by
  rcases halike.maps with ⟨hmap, hmap'⟩ | ⟨map, map', hmap, hmap', hsame⟩
  · simp only [parserStep, clearAliases, hmap, hmap']
    exact .some ⟨.same _, halike⟩
  · simp only [parserStep, clearAliases, hmap, hmap']
    refine .some ⟨.same _, halike.setMap ?_⟩
    exact ⟨map.wellFormed_clear, map'.wellFormed_clear, fun key => rfl⟩

theorem parseLine_alike (line : CString) :
    OutsAlike (parserStep cli (.parseLine line)) (parserStep cli' (.parseLine line)) := by
  obtain ⟨hrespects, hparser⟩ := RespectsAliases.of_env halike
  have hline : (BasC.parseLine .source cli.parser line).Respects World.Alike :=
    respects_parseLine hrespects line
  obtain ⟨htrace, hresult⟩ := hline cli.world cli'.world halike.world
  simp only [parserStep, hparser, htrace]
  cases hout : (BasC.parseLine .source cli.parser line).result cli.world with
  | none =>
      rw [hout] at hresult
      cases hout' : (BasC.parseLine .source cli.parser line).result cli'.world with
      | none => exact .none
      | some out' =>
          rw [hout'] at hresult
          cases hresult
  | some out =>
      rw [hout] at hresult
      cases hout' : (BasC.parseLine .source cli.parser line).result cli'.world with
      | none =>
          rw [hout'] at hresult
          cases hresult
      | some out' =>
          rw [hout'] at hresult
          cases hresult with
          | some hboth =>
              refine .some ⟨?_, hboth.2, ?_, halike.respects⟩
              · simp only [hboth.1]
                exact .same _
              · rw [halike.rest]

/-- **A call does the same to alike parsers.** -/
theorem parserStep_alike {call : ParserCall σ} (hcall : call.RespectsAliases) :
    OutsAlike (parserStep cli call) (parserStep cli' call) := by
  cases call with
  | registerHandler handler allocates => exact registerHandler_alike halike hcall allocates
  | setErrorCallback callback => exact setErrorCallback_alike halike hcall
  | setArgsContext env => exact setArgsContext_alike halike env
  | setAlias name value allocates links =>
      exact setAlias_alike halike name value allocates links
  | getAlias name => exact getAlias_alike halike name
  | removeAlias name => exact removeAlias_alike halike name
  | enumerateAliases => exact enumerateAliases_alike halike
  | clearAliases => exact clearAliases_alike halike
  | parseLine line => exact parseLine_alike halike line

end Calls

/-- **The history of the aliases is not seen.** From parsers whose alias maps answer alike, any
sequence of calls has the same answers, up to the order of an enumeration, or is undefined for
both. -/
theorem runOps_parserStep_alike {calls : List (ParserCall σ)}
    (hcalls : ∀ call ∈ calls, call.RespectsAliases) {cli cli' : CliParser σ}
    (halike : cli.Alike cli') :
    Option.Rel (fun out out' => List.Forall₂ ParserOut.Alike out.1 out'.1 ∧ out.2.Alike out'.2)
      (runOps parserStep calls cli) (runOps parserStep calls cli') :=
  @runOps_rel _ _ _ parserStep CliParser.Alike ParserOut.Alike calls
    (fun call hcall _ _ hs => parserStep_alike hs (hcalls call hcall)) _ _ halike

/-- Two aliases, added in one order and in the other. -/
theorem runOps_parserStep_alike_two :
    Option.Rel (fun out out' => List.Forall₂ ParserOut.Alike out.1 out'.1 ∧ out.2.Alike out'.2)
      (runOps parserStep [.parseLine (cstr "ll -h"), .removeAlias (cstr "la"), .enumerateAliases]
        ((CliParser.create none none PUnit.unit).setMap
          ((PrefixMap.create.add (cstr "ll") (cstr "ls -l")).add (cstr "la") (cstr "ls -a"))))
      (runOps parserStep [.parseLine (cstr "ll -h"), .removeAlias (cstr "la"), .enumerateAliases]
        ((CliParser.create none none PUnit.unit).setMap
          ((PrefixMap.create.add (cstr "la") (cstr "ls -a")).add (cstr "ll") (cstr "ls -l")))) := by
  have hne : cstr "la" ≠ cstr "ll" := by decide +kernel
  have hwell (first second value value' : CString) :
      ((PrefixMap.create.add first value).add second value').WellFormed :=
    (PrefixMap.wellFormed_create.add first value).add second value'
  refine runOps_parserStep_alike ?_ ⟨⟨⟨hwell _ _ _ _, hwell _ _ _ _, fun key => ?_⟩, rfl⟩, rfl, ?_⟩
  · simp [ParserCall.RespectsAliases]
  · simp only [PrefixMap.get_add]
    split_ifs with hla hll
    · exact absurd (hla.symm.trans hll) hne
    · rfl
    · rfl
    · rfl
  · intro env
    refine ⟨fun handler hhandler => ?_, fun resolver hresolver => ?_,
      respectsAliases_argsParser env, fun callback hcallback => ?_⟩
    · cases hhandler
    · cases hresolver
    · cases hcallback

end BasC
