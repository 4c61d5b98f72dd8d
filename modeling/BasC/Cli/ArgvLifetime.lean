/-
# The argument vectors of a line

The argument parser hands `execute_statement` a vector, whose strings `cmd_argv` points to, and
`args_free` takes it back. Here the vectors are resources: each call of the argument parser that
succeeds acquires one, `args_free` releases it, and the handlers use it. Whatever the handlers, the
resolver and the argument parser do, no vector is freed twice, and no handler gets a vector that has
been freed. A line loses one vector at most, and exactly when an alias expands to no words: the
error is reported, but the empty vector is not freed.
-/

import BasC.Cli.AliasResolution
import BasC.Lib.Lifetime

namespace BasC

open CChar Lib Traced

variable {σ : Type}

/-- A piece of the parser's code that holds argument vectors. -/
abbrev CliHolding (σ α : Type) := Holding (World σ) Event α

/-- `parsed_argv` behind a call of the argument parser: a new vector, if it succeeds and hands over
one. -/
def receive (out : ArgsOut) : CliHolding σ (Option ℕ) :=
  if out.ret = 0 ∧ out.argv.isSome then do
    let vector ← Holding.acquire
    pure (some vector)
  else pure none

/-- `if (parsed_argv) args_free(parsed_argv, parsed_argc)`. -/
def argsFree (vector : Option ℕ) : CliHolding σ PUnit := Holding.release vector.toList

/-- Parse the arguments and build the command, with `parsed_argv`. -/
def startCommandIn (parser : Parser σ) (cmdName : CString) (args : Option CString) :
    CliHolding σ (Option (Expanding × Option ℕ)) := do
  let out ← Holding.lift (parseArguments parser args)
  let vector ← receive out
  match ← Holding.lift (fillCommand parser cmdName out) with
  | none => pure none
  | some st => pure (some (st, vector))

/-- The body of the alias loop. An expansion without words is an error, and `parsed_argv` is left
as it is. -/
def expandAliasIn (limits : Limits) (parser : Parser σ) (value : CString) (st : Expanding)
    (vector : Option ℕ) : CliHolding σ (Option (Expanding × Option ℕ)) := do
  Holding.lift (Traced.emit (.copied .expandedCmd (aliasText value st.parsedArgv)))
  argsFree vector
  let out ← Holding.lift
    (parseArgs parser .expandedAlias (expandedCmd limits value st.parsedArgv))
  let vector ← receive out
  match ← Holding.lift (rebuildCommand limits parser out) with
  | none => pure none
  | some st => pure (some (st, vector))

/-- The alias loop, with the number of expansions left. -/
def expandAliasesIn (limits : Limits) (parser : Parser σ) :
    ℕ → Expanding → Option ℕ → CliHolding σ (Option (Command × Option ℕ))
  | 0, _, vector => do
      Holding.lift
        (emitError parser (cstr "Too many alias expansions (possible circular alias)"))
      argsFree vector
      pure none
  | left + 1, st, vector => do
      match ← Holding.lift (lookupAlias parser st.command.cmdName) with
      | none => pure (some (st.command, vector))
      | some value => do
          match ← expandAliasIn limits parser value st vector with
          | none => pure none
          | some (st, vector) => expandAliasesIn limits parser left st vector

/-- `execute_statement` from the redirections to the end of the alias loop. -/
def prepareCommandIn (limits : Limits) (parser : Parser σ) (cmdCopy : CString) :
    CliHolding σ (Prepared × Option ℕ) := do
  let (cmdTrim, redir) := parseRedirections cmdCopy
  let cmdName ← Holding.lift (copyInto limits .cmdName (commandWord cmdTrim))
  if cmdName = [] then pure (.ends 0, none)
  else do
    match ← startCommandIn parser cmdName (argsStr cmdTrim) with
    | none => pure (.ends (-1), none)
    | some (st, vector) =>
        match ← expandAliasesIn limits parser maxAliasExpansions st vector with
        | none => pure (.ends (-1), none)
        | some (command, vector) => pure (.ready command redir, vector)

/-- `execute_statement` up to the handlers. -/
def prepareStatementIn (limits : Limits) (parser : Parser σ) (statement : CString) :
    CliHolding σ (Prepared × Option ℕ) :=
  if trimWhitespace statement = [] then pure (.ends 0, none)
  else
    match skipComments (trimWhitespace statement) with
    | none => pure (.ends 0, none)
    | some nonComment => do
        let cmdCopy ← Holding.lift (copyInto limits .cmdCopy nonComment)
        prepareCommandIn limits parser cmdCopy

/-- Ask the handlers in order, and run the first that takes the command. Each of them gets
`cmd_argv`. -/
def tryHandlersIn (command : Command) (redir : Redirection) (vector : Option ℕ) :
    ℕ → List (Handler σ) → CliHolding σ (Option ℤ)
  | _, [] => pure none
  | index, handler :: handlers =>
      match handler.canHandle with
      | none => tryHandlersIn command redir vector (index + 1) handlers
      | some canHandle => do
          Holding.lift (Traced.emit (.canHandle index command))
          Holding.use vector
          if ← Holding.lift (Traced.update (canHandle command)) then do
            Holding.lift (Traced.emit (.handle index command redir))
            Holding.use vector
            let result ← Holding.lift (Traced.update (handler.handle command redir))
            pure (some result)
          else tryHandlersIn command redir vector (index + 1) handlers

/-- The end of `execute_statement`. -/
def dispatchIn (parser : Parser σ) (command : Command) (redir : Redirection)
    (vector : Option ℕ) : CliHolding σ ℤ := do
  match ← tryHandlersIn command redir vector 0 parser.handlers with
  | some result => do
      argsFree vector
      pure result
  | none => do
      argsFree vector
      Holding.lift
        (emitError parser (bounded 512 (cstr "Invalid command: " ++ command.cmdName)))
      pure (-1)

/-- `execute_statement`. -/
def executeStatementIn (limits : Limits) (parser : Parser σ) (statement : CString) :
    CliHolding σ ℤ := do
  match ← prepareStatementIn limits parser statement with
  | (.ends ret, _) => pure ret
  | (.ready command redir, vector) => dispatchIn parser command redir vector

/-- The loop of `cli_parser_parse_line`, from `statement_start`. -/
def statementLoopIn (limits : Limits) (parser : Parser σ) (statementStart : CString) :
    CliHolding σ ℤ :=
  match _hfound : strchr statementStart semicolon with
  | some (statement, statementEnd) => do
      let singleStatement ← Holding.lift (copyInto limits .singleStatement statement)
      let result ← executeStatementIn limits parser singleStatement
      if result ≠ 0 then pure result
      else statementLoopIn limits parser statementEnd.tail
  | none => do
      let singleStatement ← Holding.lift (copyInto limits .singleStatement statementStart)
      let result ← executeStatementIn limits parser singleStatement
      if result ≠ 0 then pure result else pure 0
termination_by statementStart.length
decreasing_by exact length_tail_lt_of_strchr _hfound

/-- `cli_parser_parse_line`. -/
def parseLineIn (limits : Limits) (parser : Parser σ) (line : CString) : CliHolding σ ℤ :=
  match skipComments line with
  | none => pure 0
  | some nonComment => do
      let lineCopy ← Holding.lift (copyInto limits .lineCopy nonComment)
      statementLoopIn limits parser lineCopy

/-! ## The parser without its vectors -/

section Forgets

open Holding

variable {limits : Limits} {parser : Parser σ}

theorem forgets_receive (out : ArgsOut) :
    Forgets (fun _ => PUnit.unit) (receive out : CliHolding σ (Option ℕ)) (pure ⟨⟩) := by
  unfold receive
  split
  · exact forgets_silent forgets_acquire fun _ => forgets_pure _
  · exact forgets_pure _

theorem forgets_argsFree (vector : Option ℕ) :
    Forgets (fun _ => PUnit.unit) (argsFree vector : CliHolding σ PUnit) (pure ⟨⟩) :=
  forgets_release _

theorem forgets_startCommandIn (cmdName : CString) (args : Option CString) :
    Forgets (Option.map Prod.fst) (startCommandIn parser cmdName args)
      (startCommand parser cmdName args) := by
  refine forgets_bind (forgets_lift _) fun out => ?_
  refine forgets_silent (forgets_receive out) fun vector => ?_
  refine forgets_return (forgets_lift _) fun started => ?_
  cases started <;> exact forgets_pure _

theorem forgets_expandAliasIn (value : CString) (st : Expanding) (vector : Option ℕ) :
    Forgets (Option.map Prod.fst) (expandAliasIn limits parser value st vector)
      (expandAlias limits parser value st) := by
  refine forgets_bind (forgets_lift _) fun _ => ?_
  refine forgets_silent (forgets_argsFree vector) fun _ => ?_
  refine forgets_bind (forgets_lift _) fun out => ?_
  refine forgets_silent (forgets_receive out) fun vector => ?_
  refine forgets_return (forgets_lift _) fun rebuilt => ?_
  cases rebuilt <;> exact forgets_pure _

theorem forgets_expandAliasesIn (left : ℕ) (st : Expanding) (vector : Option ℕ) :
    Forgets (Option.map Prod.fst) (expandAliasesIn limits parser left st vector)
      (expandAliases limits parser left st) := by
  induction left generalizing st vector with
  | zero =>
      refine forgets_bind (forgets_lift _) fun _ => ?_
      exact forgets_silent (forgets_argsFree vector) fun _ => forgets_pure _
  | succ left ih =>
      refine forgets_bind (forgets_lift _) fun found => ?_
      cases found with
      | none => exact forgets_pure _
      | some value =>
          refine forgets_bind (forgets_expandAliasIn value st vector) fun next => ?_
          cases next with
          | none => exact forgets_pure _
          | some next => exact ih next.1 next.2

theorem forgets_prepareStatementIn (statement : CString) :
    Forgets Prod.fst (prepareStatementIn limits parser statement)
      (prepareStatement limits parser statement) := by
  unfold prepareStatementIn prepareStatement
  split
  · exact forgets_pure _
  · cases skipComments (trimWhitespace statement) with
    | none => exact forgets_pure _
    | some nonComment =>
        refine forgets_bind (forgets_lift _) fun cmdCopy => ?_
        refine forgets_bind (forgets_lift _) fun cmdName => ?_
        dsimp only [id]
        split
        · exact forgets_pure _
        · refine forgets_bind (forgets_startCommandIn _ _) fun started => ?_
          cases started with
          | none => exact forgets_pure _
          | some started =>
              refine forgets_bind (forgets_expandAliasesIn _ started.1 started.2)
                fun command => ?_
              cases command <;> exact forgets_pure _

theorem forgets_tryHandlersIn (command : Command) (redir : Redirection) (vector : Option ℕ)
    (index : ℕ) (handlers : List (Handler σ)) :
    Forgets id (tryHandlersIn command redir vector index handlers)
      (tryHandlers command redir index handlers) := by
  induction handlers generalizing index with
  | nil => exact forgets_pure _
  | cons handler handlers ih =>
      unfold tryHandlersIn tryHandlers
      cases handler.canHandle with
      | none => exact ih (index + 1)
      | some canHandle =>
          refine forgets_bind (forgets_lift _) fun _ => ?_
          refine forgets_silent (forgets_use vector) fun _ => ?_
          refine forgets_bind (forgets_lift _) fun accepts => ?_
          cases accepts with
          | false => exact ih (index + 1)
          | true =>
              refine forgets_bind (forgets_lift _) fun _ => ?_
              refine forgets_silent (forgets_use vector) fun _ => ?_
              exact forgets_bind (forgets_lift _) fun result => forgets_pure _

theorem forgets_executeStatementIn (statement : CString) :
    Forgets id (executeStatementIn limits parser statement)
      (executeStatement limits parser statement) := by
  refine forgets_bind (forgets_prepareStatementIn statement) fun prepared => ?_
  obtain ⟨prepared, vector⟩ := prepared
  cases prepared with
  | ends ret => exact forgets_pure _
  | ready command redir =>
      refine forgets_bind (forgets_tryHandlersIn command redir vector 0 _) fun out => ?_
      cases out with
      | some result => exact forgets_silent (forgets_argsFree vector) fun _ => forgets_pure _
      | none =>
          refine forgets_silent (forgets_argsFree vector) fun _ => ?_
          exact forgets_bind (forgets_lift _) fun _ => forgets_pure _

theorem forgets_statementLoopIn (statementStart : CString) :
    Forgets id (statementLoopIn limits parser statementStart)
      (statementLoop limits parser statementStart) := by
  fun_induction statementLoop limits parser statementStart with
  | case1 statementStart statement statementEnd hfound ih =>
      rw [statementLoopIn.eq_def]
      split
      · rename_i statement' statementEnd' hfound'
        obtain ⟨rfl, rfl⟩ := Prod.mk.inj (Option.some.inj (hfound.symm.trans hfound'))
        refine forgets_bind (forgets_lift _) fun singleStatement => ?_
        refine forgets_bind (forgets_executeStatementIn _) fun result => ?_
        dsimp only [id]
        split
        · exact forgets_pure _
        · exact ih
      · rename_i hnone
        rw [hfound] at hnone
        cases hnone
  | case2 statementStart hfound =>
      rw [statementLoopIn.eq_def]
      split
      · rename_i hsome
        rw [hfound] at hsome
        cases hsome
      · refine forgets_bind (forgets_lift _) fun singleStatement => ?_
        refine forgets_bind (forgets_executeStatementIn _) fun result => ?_
        dsimp only [id]
        split <;> exact forgets_pure _

theorem forgets_parseLineIn (line : CString) :
    Forgets id (parseLineIn limits parser line) (parseLine limits parser line) := by
  unfold parseLineIn parseLine
  cases skipComments line with
  | none => exact forgets_pure _
  | some nonComment =>
      exact forgets_bind (forgets_lift _) fun lineCopy => forgets_statementLoopIn lineCopy

end Forgets

/-- An alias is expanded to no words, and a vector without strings is handed over. -/
def Event.losesVector : Event → Bool
  | .parsed .expandedAlias _ out =>
      decide (out.ret = 0) && out.argv.isSome && out.strings.isEmpty
  | _ => false

section Keeps

open Holding

variable {limits : Limits} {parser : Parser σ}

theorem keeps_receive (out : ArgsOut) :
    Keeps Event.losesVector 0 (receive out : CliHolding σ (Option ℕ)) fun n vector left =>
      left = vector.toList ∧ n = 0 ∧ (vector.isSome ↔ out.ret = 0 ∧ out.argv.isSome) := by
  unfold receive
  split
  · rename_i hreceived
    refine keeps_acquire.step fun n vector left hleft => ?_
    obtain ⟨rfl, rfl⟩ := hleft
    exact keeps_pure ⟨rfl, rfl, fun _ => hreceived, fun _ => rfl⟩
  · rename_i hrefused
    exact keeps_pure ⟨rfl, rfl, fun h => absurd h Bool.false_ne_true, fun h => absurd h hrefused⟩

theorem keeps_argsFree (vector : Option ℕ) :
    Keeps Event.losesVector vector.toList (argsFree vector : CliHolding σ PUnit)
      fun n _ left => left = 0 ∧ n = 0 :=
  keeps_release _

/-- The first parse hands over its vector, or there is none. -/
theorem keeps_startCommandIn (cmdName : CString) (args : Option CString) :
    Keeps Event.losesVector 0 (startCommandIn parser cmdName args) fun n out left =>
      left = (out.bind Prod.snd).toList ∧ n = 0 := by
  have hparse : (parseArguments parser args).Leaves fun events =>
      ∀ e ∈ events, e.losesVector = false := by
    cases args with
    | none => exact (sequential_forall _).pure _
    | some text =>
        refine (sequential_forall _).bind ((sequential_forall _).update _) fun out => ?_
        exact (sequential_forall _).bind (emit_forall rfl) fun _ => (sequential_forall _).pure _
  refine (keeps_quiet hparse).step fun n out left hleft => ?_
  obtain ⟨rfl, rfl⟩ := hleft
  refine (keeps_receive out).step fun n vector left hleft => ?_
  obtain ⟨rfl, rfl, hreceived⟩ := hleft
  have hfill (world : World σ) : (fillCommand parser cmdName out).Ensures world
      fun events st _ => events.countP Event.losesVector = 0 ∧ (st = none → out.ret ≠ 0) := by
    have hquiet : (fillCommand parser cmdName out).Leaves fun events =>
        ∀ e ∈ events, e.losesVector = false :=
      sequential_fillCommand (sequential_forall _) (fun _ => emit_forall rfl)
        (assign_forall fun _ => rfl) parser cmdName out
    refine ((hquiet.ensures world).and (ensures_fillCommand parser cmdName out world)).mono
      fun events st _ hst => ⟨?_, fun hnone => ?_⟩
    · exact List.countP_eq_zero.mpr fun e he => Bool.eq_false_iff.mp (hst.1 e he)
    · obtain ⟨-, -, hplace⟩ | ⟨st', rfl, -⟩ := hst.2
      · by_contra hzero
        rw [if_neg (not_not.mpr hzero)] at hplace
        cases hplace
      · cases hnone
  refine (keeps_lift (Q := fun k st => k = 0 ∧ (st = none → out.ret ≠ 0)) hfill).bind
    (zero_add _).symm fun n st left hleft => ?_
  obtain ⟨rfl, rfl, hret⟩ := hleft
  rw [zero_add]
  cases st with
  | none =>
      have hnone : vector = none := by
        cases vector with
        | none => rfl
        | some vector => exact absurd (hreceived.mp rfl).1 (hret rfl)
      rw [hnone]
      exact keeps_pure ⟨rfl, rfl⟩
  | some st => exact keeps_pure ⟨rfl, rfl⟩

/-- The number of vectors that are lost when the argument parser returns this for an expanded
alias. -/
def lostBy (out : ArgsOut) : ℕ :=
  if decide (out.ret = 0) && out.argv.isSome && out.strings.isEmpty then 1 else 0

/-- A vector that no command is built from is lost. -/
theorem card_toList_eq_lostBy {out : ArgsOut} {vector : Option ℕ}
    (hreceived : vector.isSome ↔ out.ret = 0 ∧ out.argv.isSome)
    (hnone : out.ret ≠ 0 ∨ out.strings = []) :
    ((vector.toList : List ℕ) : Multiset ℕ).card = lostBy out ∧ lostBy out ≤ 1 := by
  unfold lostBy
  cases vector with
  | none =>
      have hrefused : ¬ (out.ret = 0 ∧ out.argv.isSome = true) := fun h =>
        Bool.false_ne_true (hreceived.mpr h)
      rw [if_neg fun h => hrefused (by simp at h; simp [h])]
      exact ⟨rfl, Nat.zero_le 1⟩
  | some vector =>
      obtain ⟨hret, hargv⟩ := hreceived.mp rfl
      have hstrings := hnone.resolve_left (not_not.mpr hret)
      rw [if_pos (by simp [hret, hargv, hstrings])]
      exact ⟨rfl, le_rfl⟩

theorem firstToken_eq_none_iff (limits : Limits) (out : ArgsOut) (world : World σ) :
    firstToken limits out world = none ↔ out.ret ≠ 0 ∨ out.strings = [] := by
  unfold firstToken
  by_cases hret : out.ret ≠ 0
  · simp [hret]
  · simp [not_not.mp hret]

/-- An expansion frees one vector and hands over another one, or it has lost an empty one. -/
theorem keeps_expandAliasIn (value : CString) (st : Expanding) (vector : Option ℕ) :
    Keeps Event.losesVector vector.toList (expandAliasIn limits parser value st vector)
      fun n out left => (out = none → left.card = n ∧ n ≤ 1) ∧
        (∀ next, out = some next → left = next.2.toList ∧ n = 0) := by
  refine (keeps_quiet (emit_forall rfl)).bind (zero_add _).symm fun n _ left hleft => ?_
  obtain ⟨rfl, rfl⟩ := hleft
  rw [zero_add]
  refine (keeps_argsFree vector).step fun n _ left hleft => ?_
  obtain ⟨rfl, rfl⟩ := hleft
  have hparse (world : World σ) :
      (parseArgs parser .expandedAlias (expandedCmd limits value st.parsedArgv)).Ensures world
        fun events out _ => events.countP Event.losesVector = lostBy out := by
    intro out world' hresult
    cases hresult
    exact List.countP_singleton
  refine (keeps_lift (Q := fun k out => k = lostBy out) hparse).step fun n out left hleft => ?_
  obtain ⟨rfl, rfl⟩ := hleft
  refine (keeps_receive out).step fun k vector left hleft => ?_
  obtain ⟨rfl, rfl, hreceived⟩ := hleft
  have hrebuild (world : World σ) : (rebuildCommand limits parser out).Ensures world
      fun events st _ => events.countP Event.losesVector = 0 ∧
        (st = none ↔ out.ret ≠ 0 ∨ out.strings = []) := by
    have hquiet : (rebuildCommand limits parser out).Leaves fun events =>
        ∀ e ∈ events, e.losesVector = false :=
      sequential_rebuildCommand (sequential_forall _) (fun _ _ => emit_forall rfl)
        (fun _ => emit_forall rfl) (assign_forall fun _ => rfl) limits parser out
    refine ((hquiet.ensures world).and (ensures_rebuildCommand limits parser out world)).mono
      fun events st world' hst => ⟨?_, ?_⟩
    · exact List.countP_eq_zero.mpr fun e he => Bool.eq_false_iff.mp (hst.1 e he)
    · rw [← firstToken_eq_none_iff limits out world]
      obtain ⟨rfl, -, hplace⟩ | ⟨st', rfl, hplace⟩ := hst.2
      · exact iff_of_true rfl hplace
      · exact iff_of_false (Option.some_ne_none _) (hplace ▸ Option.some_ne_none _)
  refine (keeps_lift (Q := fun k st => k = 0 ∧ (st = none ↔ out.ret ≠ 0 ∨ out.strings = []))
    hrebuild).bind (zero_add _).symm fun k st left hleft => ?_
  obtain ⟨rfl, rfl, hnone⟩ := hleft
  rw [zero_add]
  cases st with
  | none =>
      refine keeps_pure ⟨fun _ => ?_, fun next hnext => absurd hnext.symm (Option.some_ne_none _)⟩
      simpa using card_toList_eq_lostBy hreceived (hnone.mp rfl)
  | some st =>
      have hstrings : out.strings ≠ [] := fun h =>
        absurd (hnone.mpr (.inr h)) (Option.some_ne_none _)
      refine keeps_pure ⟨fun h => absurd h (Option.some_ne_none _), fun next hnext => ?_⟩
      obtain rfl := Option.some.inj hnext
      refine ⟨rfl, ?_⟩
      simp [lostBy, hstrings]

theorem keeps_emitError (message : CString) :
    Keeps Event.losesVector 0 (lift (emitError parser message))
      fun n _ left => left = 0 ∧ n = 0 :=
  keeps_quiet (sequential_emitError (sequential_forall _) (fun _ => emit_forall rfl) parser message)

/-- What a piece leaves that returns no command: vectors that are lost, as many as are counted, and
one at most. -/
def OneLost (n : ℕ) (left : Multiset ℕ) : Prop := left.card = n ∧ n ≤ 1

theorem oneLost_none : OneLost 0 0 := ⟨rfl, Nat.zero_le 1⟩

/-- The alias loop ends with the vector of the command, or without a command. -/
theorem keeps_expandAliasesIn (count : ℕ) (st : Expanding) (vector : Option ℕ) :
    Keeps Event.losesVector vector.toList (expandAliasesIn limits parser count st vector)
      fun n out left => (out = none → OneLost n left) ∧
        (∀ next, out = some next → left = next.2.toList ∧ n = 0) := by
  induction count generalizing st vector with
  | zero =>
      refine (keeps_emitError _).bind (zero_add _).symm fun n _ left hleft => ?_
      obtain ⟨rfl, rfl⟩ := hleft
      rw [zero_add]
      refine (keeps_argsFree vector).step fun n _ left hleft => ?_
      obtain ⟨rfl, rfl⟩ := hleft
      exact keeps_pure ⟨fun _ => oneLost_none, fun _ h => absurd h.symm (Option.some_ne_none _)⟩
  | succ count ih =>
      refine (keeps_quiet (sequential_lookupAlias (sequential_forall _) parser _)).bind
        (zero_add _).symm fun n found left hleft => ?_
      obtain ⟨rfl, rfl⟩ := hleft
      rw [zero_add]
      cases found with
      | none =>
          refine keeps_pure ⟨fun h => absurd h (Option.some_ne_none _), fun next hnext => ?_⟩
          obtain rfl := Option.some.inj hnext
          exact ⟨rfl, rfl⟩
      | some value =>
          refine (keeps_expandAliasIn value st vector).step fun n out left hleft => ?_
          cases out with
          | none =>
              refine keeps_pure ⟨fun _ => ?_, fun _ h => absurd h.symm (Option.some_ne_none _)⟩
              simpa [OneLost] using hleft.1 rfl
          | some next =>
              obtain ⟨rfl, rfl⟩ := hleft.2 next rfl
              exact (ih next.1 next.2).mono fun n out left hleft => by simpa using hleft

/-- Before the handlers, a statement has the vector of its command, or it is over. -/
theorem keeps_prepareStatementIn (statement : CString) :
    Keeps Event.losesVector 0 (prepareStatementIn limits parser statement) fun n out left =>
      (∀ ret, out.1 = .ends ret → OneLost n left ∧ (n = 1 → ret = -1)) ∧
        (∀ command redir, out.1 = .ready command redir → left = out.2.toList ∧ n = 0) := by
  -- A statement that is over and has not lost anything.
  have hends (ret : ℤ) : Keeps Event.losesVector 0
      (pure (.ends ret, none) : CliHolding σ (Prepared × Option ℕ)) fun n out left =>
        (∀ ret, out.1 = .ends ret → OneLost n left ∧ (n = 1 → ret = -1)) ∧
          (∀ command redir, out.1 = .ready command redir → left = out.2.toList ∧ n = 0) :=
    keeps_pure ⟨fun _ _ => ⟨oneLost_none, fun h => absurd h Nat.zero_ne_one⟩,
      fun _ _ h => by cases h⟩
  have hcopy (buffer : Buffer) (text : CString) : Keeps Event.losesVector 0
      (lift (copyInto limits buffer text : Cli σ CString)) fun n _ left => left = 0 ∧ n = 0 :=
    keeps_quiet (sequential_copyInto (sequential_forall _) (fun _ _ => emit_forall rfl) _ _ _)
  unfold prepareStatementIn
  split
  · exact hends 0
  · cases skipComments (trimWhitespace statement) with
    | none => exact hends 0
    | some nonComment =>
        refine (hcopy _ _).step fun n cmdCopy left hleft => ?_
        obtain ⟨rfl, rfl⟩ := hleft
        refine (hcopy _ _).step fun n cmdName left hleft => ?_
        obtain ⟨rfl, rfl⟩ := hleft
        split
        · exact (hends 0).mono fun n out left hleft => by simpa using hleft
        · refine (keeps_startCommandIn _ _).step fun n started left hleft => ?_
          obtain ⟨rfl, rfl⟩ := hleft
          cases started with
          | none => exact (hends (-1)).mono fun n out left hleft => by simpa using hleft
          | some started =>
              refine (keeps_expandAliasesIn _ started.1 started.2).step fun n out left hleft => ?_
              cases out with
              | none =>
                  have hlost := hleft.1 rfl
                  refine keeps_pure ⟨fun ret hret => ?_, fun _ _ h => by cases h⟩
                  cases hret
                  exact ⟨by simpa using hlost, fun _ => rfl⟩
              | some next =>
                  obtain ⟨rfl, rfl⟩ := hleft.2 next rfl
                  refine keeps_pure ⟨fun ret hret => ?_, fun _ _ _ => ⟨rfl, rfl⟩⟩
                  cases hret

/-- The handlers use the vector, and it stays. -/
theorem keeps_tryHandlersIn (command : Command) (redir : Redirection) (vector : Option ℕ)
    (index : ℕ) (handlers : List (Handler σ)) :
    Keeps Event.losesVector vector.toList (tryHandlersIn command redir vector index handlers)
      fun n _ left => left = vector.toList ∧ n = 0 := by
  have hquiet {α : Type} {m : Cli σ α}
      (hm : m.Leaves fun events => ∀ e ∈ events, e.losesVector = false) :
      Keeps Event.losesVector vector.toList (lift m)
        fun n _ left => left = vector.toList ∧ n = 0 := by
    have hbind : Keeps Event.losesVector vector.toList (lift m >>= pure)
        fun n _ left => left = vector.toList ∧ n = 0 := by
      refine (keeps_quiet hm).bind (zero_add _).symm fun n a left hleft => ?_
      obtain ⟨rfl, rfl⟩ := hleft
      exact keeps_pure ⟨zero_add _, rfl⟩
    rwa [Traced.bind_pure] at hbind
  induction handlers generalizing index with
  | nil => exact keeps_pure ⟨rfl, rfl⟩
  | cons handler handlers ih =>
      unfold tryHandlersIn
      cases handler.canHandle with
      | none => exact ih (index + 1)
      | some canHandle =>
          refine (hquiet (emit_forall rfl)).step fun n _ left hleft => ?_
          obtain ⟨rfl, rfl⟩ := hleft
          refine (keeps_use vector).step fun n _ left hleft => ?_
          obtain ⟨rfl, rfl⟩ := hleft
          refine (hquiet ((sequential_forall _).update _)).step fun n accepts left hleft => ?_
          obtain ⟨rfl, rfl⟩ := hleft
          cases accepts with
          | false => exact (ih (index + 1)).mono fun n _ left hleft => by simpa using hleft
          | true =>
              refine (hquiet (emit_forall rfl)).step fun n _ left hleft => ?_
              obtain ⟨rfl, rfl⟩ := hleft
              refine (keeps_use vector).step fun n _ left hleft => ?_
              obtain ⟨rfl, rfl⟩ := hleft
              refine (hquiet ((sequential_forall _).update _)).step fun n _ left hleft => ?_
              obtain ⟨rfl, rfl⟩ := hleft
              exact keeps_pure ⟨rfl, rfl⟩

/-- A statement holds nothing when it is over, but for an empty vector that it has lost; then it
returns -1. -/
theorem keeps_executeStatementIn (statement : CString) :
    Keeps Event.losesVector 0 (executeStatementIn limits parser statement) fun n ret left =>
      OneLost n left ∧ (n = 1 → ret = -1) := by
  refine (keeps_prepareStatementIn statement).step fun n prepared left hleft => ?_
  obtain ⟨prepared, vector⟩ := prepared
  cases prepared with
  | ends ret => exact keeps_pure (hleft.1 ret rfl)
  | ready command redir =>
      obtain ⟨rfl, rfl⟩ := hleft.2 command redir rfl
      refine (keeps_tryHandlersIn command redir vector 0 _).step fun n out left hleft => ?_
      obtain ⟨rfl, rfl⟩ := hleft
      cases out with
      | some result =>
          refine (keeps_argsFree vector).step fun n _ left hleft => ?_
          obtain ⟨rfl, rfl⟩ := hleft
          exact keeps_pure ⟨oneLost_none, fun h => absurd h Nat.zero_ne_one⟩
      | none =>
          refine (keeps_argsFree vector).step fun n _ left hleft => ?_
          obtain ⟨rfl, rfl⟩ := hleft
          refine (keeps_emitError _).step fun n _ left hleft => ?_
          obtain ⟨rfl, rfl⟩ := hleft
          exact keeps_pure ⟨oneLost_none, fun h => absurd h Nat.zero_ne_one⟩

/-- The statements of a line: the first that loses a vector is the last one. -/
theorem keeps_statementLoopIn (statementStart : CString) :
    Keeps Event.losesVector 0 (statementLoopIn limits parser statementStart) fun n ret left =>
      OneLost n left ∧ (n = 1 → ret = -1) := by
  have hcopy (text : CString) : Keeps Event.losesVector 0
      (lift (copyInto limits .singleStatement text : Cli σ CString))
        fun n _ left => left = 0 ∧ n = 0 :=
    keeps_quiet (sequential_copyInto (sequential_forall _) (fun _ _ => emit_forall rfl) _ _ _)
  -- A statement, and what comes behind it when it has returned 0.
  have hstep {rest : CliHolding σ ℤ} (hrest : Keeps Event.losesVector 0 rest fun n ret left =>
      OneLost n left ∧ (n = 1 → ret = -1)) (text : CString) : Keeps Event.losesVector 0
        (do
          let singleStatement ← lift (copyInto limits .singleStatement text)
          let result ← executeStatementIn limits parser singleStatement
          if result ≠ 0 then pure result else rest)
        fun n ret left => OneLost n left ∧ (n = 1 → ret = -1) := by
    refine (hcopy text).step fun n singleStatement left hleft => ?_
    obtain ⟨rfl, rfl⟩ := hleft
    refine (keeps_executeStatementIn singleStatement).step fun n result left hleft => ?_
    obtain ⟨⟨hcard, hle⟩, hret⟩ := hleft
    by_cases hzero : result ≠ 0
    · rw [if_pos hzero]
      exact keeps_pure (by simpa [OneLost] using ⟨⟨hcard, hle⟩, hret⟩)
    · rw [if_neg hzero]
      have hnone : n = 0 := by
        by_contra hne
        have hone : n = 1 := by omega
        exact hzero (by rw [hret hone]; decide)
      obtain rfl : left = 0 := Multiset.card_eq_zero.mp (hcard.trans hnone)
      rw [hnone]
      exact hrest.mono fun n ret left hleft => by simpa using hleft
  fun_induction statementLoopIn limits parser statementStart with
  | case1 statementStart statement statementEnd hfound ih => exact hstep ih statement
  | case2 statementStart hfound =>
      exact hstep (keeps_pure ⟨oneLost_none, fun h => absurd h Nat.zero_ne_one⟩) statementStart

theorem keeps_parseLineIn (line : CString) :
    Keeps Event.losesVector 0 (parseLineIn limits parser line) fun n ret left =>
      OneLost n left ∧ (n = 1 → ret = -1) := by
  unfold parseLineIn
  cases skipComments line with
  | none => exact keeps_pure ⟨oneLost_none, fun h => absurd h Nat.zero_ne_one⟩
  | some nonComment =>
      refine (keeps_quiet (sequential_copyInto (sequential_forall _) (fun _ _ => emit_forall rfl)
        _ _ _)).step fun n lineCopy left hleft => ?_
      obtain ⟨rfl, rfl⟩ := hleft
      exact (keeps_statementLoopIn lineCopy).mono fun n ret left hleft => by simpa using hleft

end Keeps

/-- **The argument vectors of a line.** With its vectors, `cli_parser_parse_line` does what it does
without them. Each vector that a handler is asked about or run with is held at that moment. When the
line is over, every vector has been freed, and none twice, but for at most one: the empty vector of
an alias that has expanded to no words, and then -1 is returned. -/
theorem parseLine_vectors (limits : Limits) (parser : Parser σ) (line : CString)
    (world : World σ) :
    ((parseLineIn limits parser line).trace (world, .empty)).filterMap ResourceEvent.ran? =
        (parseLine limits parser line).trace world ∧
      ((parseLineIn limits parser line).result (world, .empty)).map
          (fun out => (out.1, out.2.1)) = (parseLine limits parser line).result world ∧
      (∀ event ∈ (parseLineIn limits parser line).trace (world, .empty), event.Live) ∧
      ∀ ret world' ledger,
        (parseLineIn limits parser line).result (world, .empty) = some (ret, world', ledger) →
          ∃ lost : List ℕ, ledger.Balances lost ∧
            lost.length = ((parseLine limits parser line).trace world).countP
              Event.losesVector ∧
            lost.length ≤ 1 ∧ (lost ≠ [] → ret = -1) := by
  obtain ⟨htrace, hresult⟩ := @forgets_parseLineIn σ limits parser line world .empty
  obtain ⟨hlive, hleaves⟩ :=
    @keeps_parseLineIn σ limits parser line world .empty 0 Ledger.holds_empty
  refine ⟨htrace, hresult, hlive, fun ret world' ledger hout => ?_⟩
  obtain ⟨left, hheld, ⟨hcard, hle⟩, hret⟩ := hleaves ret world' ledger hout
  rw [ResourceEvent.countP_counts, htrace] at hcard hle hret
  rw [add_zero] at hheld
  obtain ⟨lost, rfl⟩ := Quot.exists_rep left
  have hlength : lost.length = ((parseLine limits parser line).trace world).countP
      Event.losesVector := hcard
  refine ⟨lost, Ledger.holds_coe.mp hheld, hlength, hlength ▸ hle, fun hne => hret ?_⟩
  have hpos : lost.length ≠ 0 := fun hzero => hne (List.eq_nil_of_length_eq_zero hzero)
  omega

end BasC
