/-
# What the handlers are offered

Before any handler runs, a statement is turned into one command or ends. With the
built-in argument parser nothing changes the world on the way, so the command offered is
a function of the statement, the aliases and the enumeration. This module gives that
function, without the trace, and proves that every call of a handler is made with the
command it computes.
-/

import BasC.Cli.Statements
import Mathlib.Data.List.ReduceOption

namespace BasC

open CChar Lib

variable {σ : Type}

@[simp]
theorem storesFrom_append (index : ℤ) (first second : List (Option CString)) :
    storesFrom index (first ++ second) =
      storesFrom index first ++ storesFrom (index + first.length) second := by
  induction first generalizing index with
  | nil => simp [storesFrom]
  | cons value first ih =>
      simp only [List.cons_append, storesFrom, ih, List.length_cons]
      congr 3
      omega

theorem index_of_mem_storesFrom {index : ℤ} {values : List (Option CString)} {store : Store}
    (hstore : store ∈ storesFrom index values) :
    index ≤ store.index ∧ store.index < index + values.length := by
  induction values generalizing index with
  | nil => simp [storesFrom] at hstore
  | cons value values ih =>
      rw [List.length_cons]
      rcases List.mem_cons.mp hstore with rfl | htail
      · simp only
        omega
      · have hrange := ih htail
        omega

theorem slotValue_storesFrom (values : List (Option CString)) (index : ℤ) (offset : ℕ) :
    slotValue (storesFrom index values) (index + offset) = values[offset]?.join := by
  induction values generalizing index offset with
  | nil => simp [slotValue, storesFrom]
  | cons value values ih =>
      unfold slotValue
      rw [storesFrom, List.reverse_cons, List.find?_append]
      cases offset with
      | zero =>
          have hnone : ((storesFrom (index + 1) values).reverse.find? fun store =>
              store.index = index + (0 : ℕ)) = none := by
            rw [List.find?_eq_none]
            intro store hstore
            have hrange := index_of_mem_storesFrom (List.mem_reverse.mp hstore)
            simp only [decide_eq_true_eq]
            omega
          have hjoin : (some value).join = value := rfl
          rw [hnone]
          simp [hjoin]
      | succ offset =>
          have hnext := ih (index + 1) offset
          have hindex : index + 1 + (offset : ℤ) = index + ((offset + 1 : ℕ) : ℤ) := by omega
          rw [hindex, slotValue] at hnext
          have hfirst : (([⟨index, value⟩] : List Store).find? fun store =>
              store.index = index + ((offset + 1 : ℕ) : ℤ)) = none := by
            rw [List.find?_eq_none]
            intro store hstore
            rw [List.mem_singleton.mp hstore]
            simp only [decide_eq_true_eq]
            omega
          rw [hfirst, Option.or_none, hnext]
          simp

/-- Consecutive assignments from slot 0 leave the assigned values. -/
theorem slots_storesFrom (values : List (Option CString)) {cmdArgc : ℤ}
    (hlength : (values.length : ℤ) = cmdArgc + 1) :
    slots (storesFrom 0 values) cmdArgc = values := by
  have htoNat : (cmdArgc + 1).toNat = values.length := by omega
  apply List.ext_getElem
  · simp [slots, htoNat]
  · intro index hleft hright
    have hvalue := slotValue_storesFrom values 0 index
    have hjoin : (some values[index]).join = values[index] := rfl
    rw [zero_add] at hvalue
    simp [slots, hvalue, hright, hjoin]

/-- Every slot below `argc` holds a string, so `argc` counts the strings. -/
theorem ArgsOut.length_strings (out : ArgsOut) : out.strings.length = out.argc.toNat := by
  have hslots : ∀ slot ∈ (out.argv.getD []).take out.argc.toNat, slot.isSome = true := by
    intro slot hslot
    obtain ⟨index, hindex, rfl⟩ := List.mem_take_iff_getElem.mp hslot
    obtain ⟨arg, harg⟩ := out.filled index (by omega)
    rw [List.getElem?_eq_some_iff] at harg
    obtain ⟨_, harg⟩ := harg
    simp [harg]
  have hlong : out.argc.toNat ≤ (out.argv.getD []).length := by
    by_contra hshort
    obtain ⟨arg, harg⟩ := out.filled (out.argv.getD []).length (by omega)
    simp at harg
  rw [strings, List.reduceOption_length_eq_iff.mpr hslots, List.length_take]
  omega

theorem ArgsOut.length_cons_strings {out : ArgsOut} {first : CString} {rest : List CString}
    (hstrings : out.strings = first :: rest) : ((first :: rest).length : ℤ) = out.argc := by
  have hlength := out.length_strings
  rw [hstrings, List.length_cons] at hlength
  rw [List.length_cons]
  omega

theorem firstStores_eq (cmdName : CString) {parsedArgc : ℤ} {parsedArgv : List CString}
    (hcount : (parsedArgv.length : ℤ) = parsedArgc) :
    firstStores cmdName parsedArgc parsedArgv =
      storesFrom 0 (some cmdName :: (parsedArgv.map some ++ [none])) := by
  simp [firstStores, storesFrom, ← hcount, add_comm]

theorem rebuiltStores_eq {parsedArgc : ℤ} {parsedArgv : List CString}
    (hcount : (parsedArgv.length : ℤ) = parsedArgc) :
    rebuiltStores parsedArgc parsedArgv = storesFrom 0 (parsedArgv.map some ++ [none]) := by
  simp [rebuiltStores, storesFrom, ← hcount]

/-- Assignments to `cmd_argv` come to their end exactly when all of them are inside. -/
theorem result_assign (stores : List Store) (world : World σ) :
    (assign stores).result world =
      if ∀ store ∈ stores, 0 ≤ store.index ∧ store.index < cmdArgvSize then some (⟨⟩, world)
      else none := by
  induction stores with
  | nil => simp [assign]
  | cons store stores ih =>
      unfold assign
      by_cases hinside : 0 ≤ store.index ∧ store.index < cmdArgvSize
      · rw [if_pos hinside, Traced.result_bind_of_eq (Traced.result_emit _ _), ih]
        simp only [List.forall_mem_cons, hinside, true_and]
      · rw [if_neg hinside, Traced.result_halt, if_neg]
        exact fun hall => hinside (hall store List.mem_cons_self)

/-- The first filling is inside `cmd_argv` for -1 to 63 arguments. -/
theorem firstStores_inside_iff (cmdName : CString) {parsedArgc : ℤ} {parsedArgv : List CString}
    (hcount : parsedArgv.length = parsedArgc.toNat) :
    (∀ store ∈ firstStores cmdName parsedArgc parsedArgv,
        0 ≤ store.index ∧ store.index < cmdArgvSize) ↔ -1 ≤ parsedArgc ∧ parsedArgc < 64 := by
  unfold cmdArgvSize
  constructor
  · intro hall
    have hlast := hall ⟨parsedArgc + 1, none⟩ (by simp [firstStores])
    simp only at hlast
    omega
  · rintro ⟨hlow, hhigh⟩ store hstore
    rcases List.mem_cons.mp hstore with rfl | hstore
    · simp
    · rcases List.mem_append.mp hstore with hstore | hstore
      · have hrange := index_of_mem_storesFrom hstore
        rw [List.length_map] at hrange
        omega
      · rw [List.mem_singleton.mp hstore]
        simp only
        omega

/-- A later filling is inside `cmd_argv` for up to 64 arguments. -/
theorem rebuiltStores_inside_iff {parsedArgc : ℤ} {parsedArgv : List CString}
    (hcount : (parsedArgv.length : ℤ) = parsedArgc) :
    (∀ store ∈ rebuiltStores parsedArgc parsedArgv,
        0 ≤ store.index ∧ store.index < cmdArgvSize) ↔ parsedArgc < 65 := by
  unfold cmdArgvSize
  constructor
  · intro hall
    exact (hall ⟨parsedArgc, none⟩ (by simp [rebuiltStores])).2
  · intro hhigh store hstore
    rcases List.mem_append.mp hstore with hstore | hstore
    · have hrange := index_of_mem_storesFrom hstore
      rw [List.length_map] at hrange
      omega
    · rw [List.mem_singleton.mp hstore]
      simp only
      omega

/-- Appending to a buffer that has been cut is cutting the whole. -/
theorem Limits.strncat_fit (limits : Limits) (buffer : Buffer) (dest src : CString) :
    limits.strncat buffer (limits.fit buffer dest) src = limits.fit buffer (dest ++ src) := by
  unfold strncat fit
  cases limits buffer with
  | none => rfl
  | some size =>
      simp only [bounded, List.take_append, List.length_take]
      congr 2
      omega

theorem expandedCmd_eq (limits : Limits) (value : CString) (parsedArgv : List CString) :
    expandedCmd limits value parsedArgv =
      limits.fit .expandedCmd (aliasText value parsedArgv) := by
  unfold expandedCmd aliasText
  induction parsedArgv generalizing value with
  | nil => simp
  | cons arg parsedArgv ih =>
      rw [List.foldl_cons, Limits.strncat_fit, Limits.strncat_fit, ih]
      simp

/-! ## The command as a function of the statement -/

/-- The command name, the argument text and the redirections of a statement that has a
command name. -/
def readStatement (limits : Limits) (statement : CString) :
    Option (CString × Option CString × Redirection) :=
  if trimWhitespace statement = [] then none
  else
    match skipComments (trimWhitespace statement) with
    | none => none
    | some nonComment =>
        let parts := parseRedirections (limits.fit .cmdCopy nonComment)
        if limits.fit .cmdName (commandWord parts.1) = [] then none
        else some (limits.fit .cmdName (commandWord parts.1), argsStr parts.1, parts.2)

/-- `execute_statement` from the command name to the end of the alias loop. -/
def resolveCommand (limits : Limits) (parser : Parser σ)
    (parts : CString × Option CString × Redirection) : Cli σ Prepared := do
  match ← startCommand parser parts.1 parts.2.1 with
  | none => pure (.ends (-1))
  | some st =>
      match ← expandAliases limits parser maxAliasExpansions st with
      | none => pure (.ends (-1))
      | some command => pure (.ready command parts.2.2)

/-- **A statement is read, and then its command is resolved.** -/
theorem observed_prepareStatement (limits : Limits) (parser : Parser σ) (statement : CString) :
    observed (prepareStatement limits parser statement) =
      (readStatement limits statement).elim (pure (.ends 0)) fun parts =>
        observed (resolveCommand limits parser parts) := by
  unfold prepareStatement readStatement
  by_cases hempty : trimWhitespace statement = []
  · rw [if_pos hempty, if_pos hempty]
    rfl
  · rw [if_neg hempty, if_neg hempty]
    cases skipComments (trimWhitespace statement) with
    | none => rfl
    | some nonComment =>
        simp only
        unfold prepareCommand
        rw [observed_copyInto_bind]
        generalize parseRedirections (limits.fit .cmdCopy nonComment) = parts
        obtain ⟨cmdTrim, redir⟩ := parts
        simp only
        rw [observed_copyInto_bind]
        by_cases hname : limits.fit .cmdName (commandWord cmdTrim) = []
        · rw [if_pos hname, if_pos hname]
          rfl
        · rw [if_neg hname, if_neg hname]
          rfl

/-- The result of parsing the argument text. -/
def parsedArguments (env : ArgsEnv) : Option CString → ArgsOut
  | none => .initial
  | some text => argsParse env text

/-- The command after the first filling of `cmd_argv`, if that succeeds. -/
def firstFilling (cmdName : CString) (out : ArgsOut) : Option Expanding :=
  if out.ret = 0 ∧ -1 ≤ out.argc ∧ out.argc < 64 then
    some ⟨⟨cmdName, out.argc + 1, slots (firstStores cmdName out.argc out.strings) (out.argc + 1)⟩,
      out.strings⟩
  else none

/-- The command after a later filling of `cmd_argv`, if that succeeds. -/
def laterFilling (limits : Limits) (out : ArgsOut) : Option Expanding :=
  match out.strings with
  | [] => none
  | first :: rest =>
      if out.ret = 0 ∧ out.argc < 65 then
        some ⟨⟨limits.fit .cmdName first, out.argc, (first :: rest).map some ++ [none]⟩,
          first :: rest⟩
      else none

/-- The command after the alias loop, with the number of expansions left. -/
def resolveAliases (limits : Limits) (env : ArgsEnv) (lookup : CString → Option CString) :
    ℕ → Expanding → Option Command
  | 0, _ => none
  | left + 1, st =>
      match lookup st.command.cmdName with
      | none => some st.command
      | some value =>
          (laterFilling limits
            (argsParse env (limits.fit .expandedCmd (aliasText value st.parsedArgv)))).bind
            (resolveAliases limits env lookup left)

/-- The command of a statement that is not over. -/
def Prepared.command? : Prepared → Option (Command × Redirection)
  | .ends _ => none
  | .ready command redir => some (command, redir)

/-- The command and the redirections that the handlers are asked about, if the statement
gets that far. -/
def offered (limits : Limits) (parser : Parser σ) (statement : CString) (world : World σ) :
    Option (Command × Redirection) :=
  ((prepareStatement limits parser statement).result world).bind (·.1.command?)

section BuiltInParser

variable {env : ArgsEnv} {parser : Parser σ} {world : World σ} {map : PrefixMap CString}

/-- The value and the world of a piece that lets the statement go on. -/
def goesOn {α : Type} (m : Cli σ (Option α)) (world : World σ) : Option (α × World σ) :=
  (m.result world).bind fun out => out.1.map (·, out.2)

/-- What ends in an error does not go on. -/
theorem goesOn_bind_pure_none {α β : Type} (m : Cli σ β) (world : World σ) :
    goesOn (m >>= fun _ => pure (none : Option α)) world = none := by
  rw [goesOn, Traced.result_bind]
  cases m.result world <;> rfl

theorem goesOn_bind_of_eq {α β : Type} {m : Cli σ β} {next : β → Cli σ (Option α)}
    {world world' : World σ} {value : β} (hfirst : m.result world = some (value, world')) :
    goesOn (m >>= next) world = goesOn (next value) world' := by
  rw [goesOn, Traced.result_bind_of_eq hfirst, goesOn]

theorem goesOn_bind_of_none {α β : Type} {m : Cli σ β} {next : β → Cli σ (Option α)}
    {world : World σ} (hfirst : m.result world = none) : goesOn (m >>= next) world = none := by
  rw [goesOn, Traced.result_bind_of_none hfirst, Option.bind_none]

/-- A later piece is reached when the pieces before it go on. -/
theorem goesOn_bind_option {α β : Type} (m : Cli σ (Option β))
    (next : Option β → Cli σ (Option α)) (world : World σ)
    (hstop : ∀ world', goesOn (next none) world' = none) :
    goesOn (m >>= next) world =
      (goesOn m world).bind fun out => goesOn (next (some out.1)) out.2 := by
  cases hresult : m.result world with
  | none =>
      have hnone : goesOn m world = none := by rw [goesOn, hresult, Option.bind_none]
      rw [goesOn_bind_of_none hresult, hnone, Option.bind_none]
  | some out =>
      obtain ⟨value, world'⟩ := out
      have hvalue : goesOn m world = value.map (·, world') := by
        rw [goesOn, hresult, Option.bind_some]
      rw [goesOn_bind_of_eq hresult, hvalue]
      cases value with
      | none => exact hstop world'
      | some value => rfl

/-- The command behind a piece that lets the statement go on. -/
theorem command?_bind_option {β : Type} (m : Cli σ (Option β)) (next : Option β → Cli σ Prepared)
    (world : World σ)
    (hstop : ∀ world', ((next none).result world').bind (·.1.command?) = none) :
    ((m >>= next).result world).bind (·.1.command?) =
      (goesOn m world).bind fun out =>
        ((next (some out.1)).result out.2).bind (·.1.command?) := by
  rw [Traced.result_bind, goesOn]
  cases m.result world with
  | none => rfl
  | some out =>
      obtain ⟨value, world'⟩ := out
      cases value with
      | none => exact hstop world'
      | some value => rfl

theorem result_parseArgs (hparser : parser.argsParser = defaultArgsParser env) (site : ParseSite)
    (text : CString) (world : World σ) :
    (parseArgs parser site text).result world = some (argsParse env text, world) := by
  unfold parseArgs
  rw [hparser]
  rfl

theorem result_parseArguments (hparser : parser.argsParser = defaultArgsParser env)
    (args : Option CString) (world : World σ) :
    (parseArguments parser args).result world = some (parsedArguments env args, world) := by
  cases args with
  | none => rfl
  | some text => exact result_parseArgs hparser _ _ _

/-- The parser does not change the world before the handlers run. -/
theorem goesOn_startCommand (hparser : parser.argsParser = defaultArgsParser env)
    (cmdName : CString) (args : Option CString) (world : World σ) :
    goesOn (startCommand parser cmdName args) world =
      (firstFilling cmdName (parsedArguments env args)).map (·, world) := by
  unfold startCommand
  rw [goesOn_bind_of_eq (result_parseArguments hparser args world)]
  generalize parsedArguments env args = out
  unfold fillCommand firstFilling
  by_cases hret : out.ret = 0
  · rw [if_neg (not_not.mpr hret)]
    have hinside := firstStores_inside_iff cmdName out.length_strings
    by_cases hfits : -1 ≤ out.argc ∧ out.argc < 64
    · have hassign := result_assign (firstStores cmdName out.argc out.strings) world
      rw [if_pos (hinside.mpr hfits)] at hassign
      rw [goesOn_bind_of_eq hassign, if_pos ⟨hret, hfits⟩]
      rfl
    · have hassign := result_assign (firstStores cmdName out.argc out.strings) world
      rw [if_neg (fun hall => hfits (hinside.mp hall))] at hassign
      rw [goesOn_bind_of_none hassign, if_neg fun hboth => hfits hboth.2]
      rfl
  · rw [if_pos hret, if_neg fun hboth => hret hboth.1]
    exact goesOn_bind_pure_none _ _

theorem goesOn_expandAlias (hparser : parser.argsParser = defaultArgsParser env) (limits : Limits)
    (value : CString) (st : Expanding) (world : World σ) :
    goesOn (expandAlias limits parser value st) world =
      (laterFilling limits
        (argsParse env (limits.fit .expandedCmd (aliasText value st.parsedArgv)))).map
        (·, world) := by
  unfold expandAlias
  rw [goesOn_bind_of_eq (Traced.result_emit _ _), expandedCmd_eq,
    goesOn_bind_of_eq (result_parseArgs hparser _ _ _)]
  generalize argsParse env (limits.fit .expandedCmd (aliasText value st.parsedArgv)) = out
  unfold rebuildCommand laterFilling
  by_cases hret : out.ret = 0
  · rw [if_neg (not_not.mpr hret)]
    cases hstrings : out.strings with
    | nil => exact goesOn_bind_pure_none _ _
    | cons first rest =>
        have hcount := ArgsOut.length_cons_strings hstrings
        have hinside := rebuiltStores_inside_iff hcount
        have hassign := result_assign (rebuiltStores out.argc (first :: rest)) world
        simp only
        rw [goesOn_bind_of_eq (result_copyInto _ _ _ _)]
        by_cases hfits : out.argc < 65
        · rw [if_pos (hinside.mpr hfits)] at hassign
          rw [goesOn_bind_of_eq hassign, if_pos ⟨hret, hfits⟩, rebuiltStores_eq hcount,
            slots_storesFrom]
          · rfl
          · rw [List.length_append, List.length_map, ← hcount]
            rfl
        · rw [if_neg (fun hall => hfits (hinside.mp hall))] at hassign
          rw [goesOn_bind_of_none hassign, if_neg fun hboth => hfits hboth.2]
          rfl
  · rw [if_pos hret, goesOn_bind_pure_none]
    cases out.strings with
    | nil => rfl
    | cons first rest =>
        simp only
        rw [if_neg fun hboth => hret hboth.1]
        rfl

/-- The internal map, when there is one, is asked before any resolver. -/
theorem result_lookupAlias (hmap : world.aliasMap = some map) (name : CString) :
    (lookupAlias parser name).result world = some (map.get name, world) := by
  unfold lookupAlias
  rw [Traced.result_bind_of_eq (Traced.result_current world), hmap]
  cases parser.aliasResolver <;> rfl

theorem goesOn_expandAliases (hparser : parser.argsParser = defaultArgsParser env)
    (hmap : world.aliasMap = some map) (limits : Limits) (left : ℕ) (st : Expanding) :
    goesOn (expandAliases limits parser left st) world =
      (resolveAliases limits env map.get left st).map (·, world) := by
  induction left generalizing st with
  | zero => exact goesOn_bind_pure_none _ _
  | succ left ih =>
      unfold expandAliases resolveAliases
      rw [goesOn_bind_of_eq (result_lookupAlias hmap _)]
      cases map.get st.command.cmdName with
      | none => rfl
      | some value =>
          simp only
          rw [goesOn_bind_option _ _ _ fun _ => rfl, goesOn_expandAlias hparser]
          cases laterFilling limits
              (argsParse env (limits.fit .expandedCmd (aliasText value st.parsedArgv))) with
          | none => rfl
          | some next => exact ih next

/-- **The command offered.** With the built-in argument parser and an internal alias map,
the handlers are asked about the command that these functions compute. -/
theorem offered_eq (hparser : parser.argsParser = defaultArgsParser env)
    (hmap : world.aliasMap = some map) (limits : Limits) (statement : CString) :
    offered limits parser statement world =
      (readStatement limits statement).bind fun parts =>
        ((firstFilling parts.1 (parsedArguments env parts.2.1)).bind
          (resolveAliases limits env map.get maxAliasExpansions)).map
          (·, parts.2.2) := by
  have hstop : ∀ world', (((pure (.ends (-1)) : Cli σ Prepared).result world').bind
      fun out => out.1.command?) = none := fun _ => rfl
  unfold offered
  rw [← result_observed, observed_prepareStatement]
  cases readStatement limits statement with
  | none => rfl
  | some parts =>
      obtain ⟨cmdName, args, redir⟩ := parts
      rw [Option.elim_some, result_observed, Option.bind_some]
      unfold resolveCommand
      rw [command?_bind_option _ _ _ hstop, goesOn_startCommand hparser]
      simp only
      cases firstFilling cmdName (parsedArguments env args) with
      | none => rfl
      | some st =>
          simp only [Option.map_some, Option.bind_some]
          rw [command?_bind_option _ _ _ hstop, goesOn_expandAliases hparser hmap]
          cases resolveAliases limits env map.get maxAliasExpansions st <;>
            rfl

end BuiltInParser

end BasC
