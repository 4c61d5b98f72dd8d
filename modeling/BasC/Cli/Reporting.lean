/-
# How a line ends

`emit_error` is called at five places of `execute_statement`, each in front of a `return -1`. A
line either reports nothing and returns 0, or stops at the handler whose result it returns, or
stops at its one report and returns -1.

A handler is called behind the questions to the handlers registered before it and to itself, and
a statement calls one handler at most.
-/

import BasC.Cli.AliasResolution
import BasC.Cli.ArgvBounds

namespace BasC

open CChar Lib Traced

variable {σ : Type}

/-- A report of the parser. -/
def Event.IsReport : Event → Prop
  | .error _ => True
  | _ => False

/-- Nothing is reported. -/
def Unreported (events : List Event) : Prop := ∀ e ∈ events, ¬ e.IsReport

theorem Unreported.append {events rest : List Event} (hevents : Unreported events)
    (hrest : Unreported rest) : Unreported (events ++ rest) :=
  List.forall_mem_append.mpr ⟨hevents, hrest⟩

section Pieces

variable {limits : Limits} {parser : Parser σ}

theorem unreported_copyInto (limits : Limits) (buffer : Buffer) (text : CString) :
    (copyInto limits buffer text : Cli σ CString).Leaves Unreported :=
  sequential_copyInto (sequential_forall _) (fun _ _ => emit_forall not_false) limits buffer text

theorem unreported_parseArgs (site : ParseSite) (text : CString) :
    (parseArgs parser site text).Leaves Unreported :=
  sequential_parseArgs (sequential_forall _) (fun _ _ _ => emit_forall not_false) parser site text

theorem unreported_assign (stores : List Store) :
    (assign stores : Cli σ PUnit).Leaves Unreported :=
  assign_forall (fun _ => not_false) stores

theorem result_emitError (message : CString) (world : World σ) :
    ∃ world', (emitError parser message).result world = some (⟨⟩, world') := by
  unfold emitError
  cases parser.errorCallback with
  | none => exact ⟨world, rfl⟩
  | some callback => exact ⟨callback message world, rfl⟩

/-- A return behind a report. -/
theorem announces_emitError {α : Type} (message : CString) :
    Announces Event.IsReport (· = none)
      (do emitError parser message; pure (none : Option α)) := by
  intro world
  obtain ⟨world', hreport⟩ := @result_emitError σ parser message world
  refine .inr ⟨[], .error message, none, world', ?_, by simp, trivial, ?_, rfl⟩
  · exact trace_emitError_pure parser message none world
  · rw [result_bind_of_eq hreport, result_pure]

theorem announces_startCommand (cmdName : CString) (args : Option CString) :
    Announces Event.IsReport (· = none) (startCommand parser cmdName args) := by
  have hargs : (parseArguments parser args).Leaves Unreported :=
    sequential_parseArguments (sequential_forall _) (fun _ _ _ => emit_forall not_false) parser args
  refine announces_quiet_bind hargs fun out => ?_
  unfold fillCommand
  split
  · exact announces_emitError _
  · exact announces_quiet_bind (unreported_assign _) fun _ => announces_pure (by simp)

theorem announces_expandAlias (value : CString) (st : Expanding) :
    Announces Event.IsReport (· = none) (expandAlias limits parser value st) := by
  refine announces_quiet_bind (emit_forall not_false) fun _ => ?_
  refine announces_quiet_bind (unreported_parseArgs _ _) fun out => ?_
  unfold rebuildCommand
  split
  · exact announces_emitError _
  · split
    · exact announces_emitError _
    · refine announces_quiet_bind (unreported_copyInto _ _ _) fun cmdName => ?_
      exact announces_quiet_bind (unreported_assign _) fun _ => announces_pure (by simp)

theorem announces_expandAliases (left : ℕ) (st : Expanding) :
    Announces Event.IsReport (· = none) (expandAliases limits parser left st) := by
  induction left generalizing st with
  | zero => exact announces_emitError _
  | succ left ih =>
      have hlookup : (lookupAlias parser st.command.cmdName).Leaves Unreported :=
        sequential_lookupAlias (sequential_forall _) parser _
      refine announces_quiet_bind hlookup fun found => ?_
      cases found with
      | none => exact announces_pure (by simp)
      | some value =>
          refine announces_bind (announces_expandAlias value st) ?_ ?_
          · rintro _ rfl
            exact ⟨none, rfl, rfl⟩
          · intro next hnext
            cases next with
            | none => exact absurd rfl hnext
            | some next => exact ih next

/-- **Before the handlers, a statement fails exactly with a report.** -/
theorem announces_prepareStatement (statement : CString) :
    Announces Event.IsReport (· = .ends (-1)) (prepareStatement limits parser statement) := by
  unfold prepareStatement
  split
  · exact announces_pure (by simp)
  · split
    · exact announces_pure (by simp)
    · refine announces_quiet_bind (unreported_copyInto _ _ _) fun cmdCopy => ?_
      refine announces_quiet_bind (unreported_copyInto _ _ _) fun cmdName => ?_
      split
      · exact announces_pure (by simp)
      · refine announces_bind (announces_startCommand _ _) ?_ fun started hstarted => ?_
        · rintro _ rfl
          exact ⟨_, rfl, rfl⟩
        cases started with
        | none => exact absurd rfl hstarted
        | some st =>
            refine announces_bind (announces_expandAliases _ st) ?_ fun command hcommand => ?_
            · rintro _ rfl
              exact ⟨_, rfl, rfl⟩
            cases command with
            | none => exact absurd rfl hcommand
            | some command => exact announces_pure (by simp)

end Pieces

/-- The questions to the handlers from `first` on that have a `can_handle`, in the order in which
they were registered. -/
def questions (command : Command) : ℕ → List (Handler σ) → List Event
  | _, [] => []
  | first, handler :: handlers =>
      if handler.canHandle.isSome then
        .canHandle first command :: questions command (first + 1) handlers
      else questions command (first + 1) handlers

/-- What asking the handlers leaves: all questions when nobody takes the command, and else the
questions up to the handler that takes it, and the call of this handler, whose result is
returned. -/
theorem tryHandlers_cases (command : Command) (redir : Redirection) (first : ℕ)
    (handlers : List (Handler σ)) (world : World σ) :
    (∃ last, (tryHandlers command redir first handlers).trace world =
        questions command first handlers ∧
      (tryHandlers command redir first handlers).result world = some (none, last)) ∨
    ∃ asked handler rest before ret last, handlers = asked ++ handler :: rest ∧
      (tryHandlers command redir first handlers).trace world =
        questions command first asked ++ [.canHandle (first + asked.length) command,
          .handle (first + asked.length) command redir] ∧
      handler.handle command redir before = (ret, last) ∧
      (tryHandlers command redir first handlers).result world = some (some ret, last) := by
  induction handlers generalizing first world with
  | nil => exact .inl ⟨world, rfl, rfl⟩
  | cons handler handlers ih =>
      cases hcan : handler.canHandle with
      | none =>
          have hskip : tryHandlers command redir first (handler :: handlers) =
              tryHandlers command redir (first + 1) handlers := by
            rw [tryHandlers, hcan]
          have hquestions (more : List (Handler σ)) :
              questions command first (handler :: more) = questions command (first + 1) more := by
            rw [questions, hcan]
            rfl
          rw [hskip]
          rcases ih (first + 1) world with ⟨last, htrace, hresult⟩ |
            ⟨asked, taker, rest, before, ret, last, rfl, htrace, hret, hresult⟩
          · exact .inl ⟨last, htrace.trans (hquestions _).symm, hresult⟩
          · refine .inr ⟨handler :: asked, taker, rest, before, ret, last, rfl, ?_, hret, hresult⟩
            rw [htrace, hquestions, List.length_cons, Nat.add_right_comm, Nat.add_assoc]
      | some canHandle =>
          have hquestions (more : List (Handler σ)) :
              questions command first (handler :: more) =
                .canHandle first command :: questions command (first + 1) more := by
            rw [questions, hcan]
            rfl
          rcases hanswer : canHandle command world with ⟨accepts, asked⟩
          have hasked : (Traced.update (canHandle command) : Cli σ Bool).result world =
              some (accepts, asked) := congrArg some hanswer
          have htrace : (tryHandlers command redir first (handler :: handlers)).trace world =
              .canHandle first command :: (if accepts then do
                Traced.emit (.handle first command redir)
                let result ← Traced.update (handler.handle command redir)
                pure (some result)
              else tryHandlers command redir (first + 1) handlers :
                Cli σ (Option ℤ)).trace asked := by
            rw [tryHandlers, hcan, trace_bind_of_eq (result_emit _ world), trace_bind_of_eq hasked]
            rfl
          have hresult : (tryHandlers command redir first (handler :: handlers)).result world =
              (if accepts then do
                Traced.emit (.handle first command redir)
                let result ← Traced.update (handler.handle command redir)
                pure (some result)
              else tryHandlers command redir (first + 1) handlers :
                Cli σ (Option ℤ)).result asked := by
            rw [tryHandlers, hcan, result_bind_of_eq (result_emit _ world),
              result_bind_of_eq hasked]
          rw [htrace, hresult]
          cases accepts with
          | true =>
              refine .inr ⟨[], handler, handlers, asked, _, _, rfl, ?_, rfl, rfl⟩
              rfl
          | false =>
              rcases ih (first + 1) asked with ⟨last, hrest, hlast⟩ |
                ⟨more, taker, rest, before, ret, last, rfl, hrest, hret, hlast⟩
              · refine .inl ⟨last, ?_, hlast⟩
                rw [hquestions]
                exact congrArg (_ :: ·) hrest
              · refine .inr ⟨handler :: more, taker, rest, before, ret, last, rfl, ?_, hret, hlast⟩
                rw [hquestions, List.length_cons, Nat.add_comm more.length, ← Nat.add_assoc]
                exact congrArg (_ :: ·) hrest

/-! ## How a run ends -/

/-- A store goes to a slot of `cmd_argv`. -/
def Event.InVector : Event → Prop
  | .stored store => 0 ≤ store.index ∧ store.index < cmdArgvSize
  | _ => True

/-- What a statement or a line leaves, and what it returns in which world. -/
inductive Ended (parser : Parser σ) : List Event → Option (ℤ × World σ) → Prop
  /-- Nothing is reported, and 0 is returned. -/
  | done {events : List Event} {last : World σ} (hunreported : Unreported events) :
      Ended parser events (some (0, last))
  /-- A handler was called last, and what it returned is returned. -/
  | refused {before : List Event} {index : ℕ} {handler : Handler σ} {command : Command}
      {redir : Redirection} {world last : World σ} {ret : ℤ} (hunreported : Unreported before)
      (hhandler : parser.handlers[index]? = some handler)
      (hret : handler.handle command redir world = (ret, last)) (hne : ret ≠ 0) :
      Ended parser (before ++ [.handle index command redir]) (some (ret, last))
  /-- A report was made last, and -1 is returned. -/
  | reported {before : List Event} {message : CString} {last : World σ}
      (hunreported : Unreported before) :
      Ended parser (before ++ [.error message]) (some (-1, last))
  /-- A store outside the vector is undefined. -/
  | undefined {events : List Event} (hunreported : Unreported events)
      (houtside : ∃ e ∈ events, ¬ e.InVector) : Ended parser events none

/-- What happened before. -/
theorem Ended.prepend {parser : Parser σ} {events : List Event} {result : Option (ℤ × World σ)}
    (hended : Ended parser events result) {before : List Event} (hbefore : Unreported before) :
    Ended parser (before ++ events) result := by
  cases hended with
  | done hunreported => exact .done (hbefore.append hunreported)
  | refused hunreported hhandler hret hne =>
      rw [← List.append_assoc]
      exact .refused (hbefore.append hunreported) hhandler hret hne
  | reported hunreported =>
      rw [← List.append_assoc]
      exact .reported (hbefore.append hunreported)
  | undefined hunreported houtside =>
      obtain ⟨e, he, hwithin⟩ := houtside
      exact .undefined (hbefore.append hunreported) ⟨e, List.mem_append_right _ he, hwithin⟩

theorem unreported_questions (command : Command) (first : ℕ) (handlers : List (Handler σ)) :
    Unreported (questions command first handlers) := by
  induction handlers generalizing first with
  | nil => exact List.forall_mem_nil _
  | cons handler handlers ih =>
      rw [questions]
      split
      · exact List.forall_mem_cons.mpr ⟨not_false, ih (first + 1)⟩
      · exact ih (first + 1)

section Line

variable {limits : Limits} {parser : Parser σ}

theorem ended_dispatch (command : Command) (redir : Redirection) (world : World σ) :
    Ended parser ((dispatch parser command redir).trace world)
      ((dispatch parser command redir).result world) := by
  unfold dispatch
  rcases tryHandlers_cases command redir 0 parser.handlers world with ⟨last, htrace, hresult⟩ |
    ⟨asked, handler, rest, before, ret, last, hhandlers, htrace, hret, hresult⟩
  · rw [trace_bind_of_eq hresult, result_bind_of_eq hresult, htrace]
    refine Ended.prepend ?_ (unreported_questions command 0 _)
    obtain ⟨world', hreport⟩ := @result_emitError σ parser
      (bounded 512 (cstr "Invalid command: " ++ command.cmdName)) last
    rw [trace_emitError_pure, result_bind_of_eq hreport, result_pure]
    exact .reported (List.forall_mem_nil _)
  · rw [trace_bind_of_eq hresult, result_bind_of_eq hresult, trace_pure, List.append_nil, htrace]
    have hquestions : Unreported (questions command 0 asked ++
        [.canHandle (0 + asked.length) command]) :=
      (unreported_questions command 0 asked).append (List.forall_mem_singleton.mpr not_false)
    rw [List.append_cons]
    rcases eq_or_ne ret 0 with rfl | hne
    · exact .done (hquestions.append (List.forall_mem_singleton.mpr not_false))
    · refine .refused hquestions ?_ hret hne
      rw [hhandlers, Nat.zero_add, List.getElem?_append_right le_rfl, Nat.sub_self]
      rfl

theorem endsIff_assign (stores : List Store) :
    EndsIff Event.InVector (assign stores : Cli σ PUnit) := by
  induction stores with
  | nil => exact (sequential_endsIff _).pure _
  | cons store stores ih =>
      unfold assign
      split
      · rename_i hinside
        exact (sequential_endsIff _).bind (endsIff_emit hinside) fun _ => ih
      · rename_i houtside
        intro world
        exact iff_of_false (fun hne => hne rfl) fun hwithin =>
          houtside (hwithin _ (List.mem_singleton_self _))

theorem endsIff_executeStatement_inVector (statement : CString) :
    EndsIff Event.InVector (executeStatement limits parser statement) := by
  have hR := sequential_endsIff (σ := World σ) Event.InVector
  have hcopied (buffer : Buffer) (text : CString) :
      EndsIff Event.InVector (emit (.copied buffer text) : Cli σ PUnit) := endsIff_emit trivial
  have herror (message : CString) :
      EndsIff Event.InVector (emit (.error message) : Cli σ PUnit) := endsIff_emit trivial
  have hparsed (site : ParseSite) (text : CString) (out : ArgsOut) :
      EndsIff Event.InVector (emit (.parsed site text out) : Cli σ PUnit) := endsIff_emit trivial
  have hstart (cmdName : CString) (args : Option CString) :
      EndsIff Event.InVector (startCommand parser cmdName args) :=
    hR.bind (sequential_parseArguments hR hparsed parser args) fun out =>
      sequential_fillCommand hR herror endsIff_assign parser cmdName out
  have hexpand (value : CString) (st : Expanding) :
      EndsIff Event.InVector (expandAlias limits parser value st) :=
    hR.bind (hcopied _ _) fun _ => hR.bind (sequential_parseArgs hR hparsed parser _ _) fun out =>
      sequential_rebuildCommand hR hcopied herror endsIff_assign limits parser out
  refine hR.bind (sequential_prepareStatement hR hcopied herror hstart hexpand statement)
    fun prepared => ?_
  cases prepared with
  | ends ret => exact hR.pure ret
  | ready command redir =>
      exact sequential_dispatch hR herror (fun index => endsIff_emit trivial)
        fun index => endsIff_emit trivial

theorem ended_executeStatement (statement : CString) (world : World σ) :
    Ended parser ((executeStatement limits parser statement).trace world)
      ((executeStatement limits parser statement).result world) := by
  have hwithin := @endsIff_executeStatement_inVector σ limits parser statement world
  unfold executeStatement at hwithin ⊢
  rcases @announces_prepareStatement σ limits parser statement world with
    ⟨hunreported, hends⟩ | ⟨before, event, prepared, last, htrace, hquiet, hreport, hresult, rfl⟩
  · cases hprepare : (prepareStatement limits parser statement).result world with
    | none =>
        rw [trace_bind_of_none hprepare, result_bind_of_none hprepare] at hwithin ⊢
        refine .undefined hunreported ?_
        have houtside := (not_congr hwithin).mp fun hne => hne rfl
        push Not at houtside
        exact houtside
    | some out =>
        obtain ⟨prepared, last⟩ := out
        rw [trace_bind_of_eq hprepare, result_bind_of_eq hprepare]
        refine Ended.prepend ?_ hunreported
        cases prepared with
        | ready command redir => exact ended_dispatch command redir last
        | ends ret =>
            rcases ensures_prepareStatement limits parser statement world _ _ hprepare with
              ⟨-, hzero⟩ | ⟨_, -, ⟨hfails, -⟩ | ⟨_, hready, -⟩⟩
            · obtain rfl := Prepared.ends.inj hzero
              exact .done (List.forall_mem_nil _)
            · exact absurd hfails (hends _ _ hprepare)
            · cases hready
  · rw [trace_bind_of_eq hresult, result_bind_of_eq hresult, htrace, trace_pure, List.append_nil]
    cases event with
    | error message => exact .reported hquiet
    | copied => cases hreport
    | parsed => cases hreport
    | stored => cases hreport
    | canHandle => cases hreport
    | handle => cases hreport

/-- A statement, and what is run behind it if it returns 0. -/
theorem Ended.then {statement rest : Cli σ ℤ}
    (hstatement : ∀ world, Ended parser (statement.trace world) (statement.result world))
    (hrest : ∀ world, Ended parser (rest.trace world) (rest.result world)) (world : World σ) :
    Ended parser
      ((statement >>= fun result => if result ≠ 0 then pure result else rest).trace world)
      ((statement >>= fun result => if result ≠ 0 then pure result else rest).result world) := by
  have hended := hstatement world
  cases hresult : statement.result world with
  | none =>
      rw [trace_bind_of_none hresult, result_bind_of_none hresult]
      rwa [hresult] at hended
  | some out =>
      obtain ⟨ret, last⟩ := out
      rw [trace_bind_of_eq hresult, result_bind_of_eq hresult]
      rw [hresult] at hended
      by_cases hzero : ret = 0
      · subst hzero
        rw [if_neg (not_not_intro rfl)]
        refine (hrest last).prepend ?_
        generalize statement.trace world = events at hended
        cases hended with
        | done hunreported => exact hunreported
        | refused _ _ _ hne => exact absurd rfl hne
      · rw [if_pos hzero, trace_pure, List.append_nil]
        exact hended

theorem ended_copyInto_bind {buffer : Buffer} {text : CString} {rest : CString → Cli σ ℤ}
    (hrest : ∀ copy world, Ended parser ((rest copy).trace world) ((rest copy).result world))
    (world : World σ) : Ended parser ((copyInto limits buffer text >>= rest).trace world)
      ((copyInto limits buffer text >>= rest).result world) := by
  have hresult := result_copyInto limits buffer text world
  rw [trace_bind_of_eq hresult, result_bind_of_eq hresult]
  exact (hrest _ world).prepend (unreported_copyInto limits buffer text world)

theorem ended_statementLoop (statementStart : CString) (world : World σ) :
    Ended parser ((statementLoop limits parser statementStart).trace world)
      ((statementLoop limits parser statementStart).result world) := by
  fun_induction statementLoop limits parser statementStart generalizing world with
  | case1 statementStart statement statementEnd hfound ih =>
      exact ended_copyInto_bind (fun copy => Ended.then (ended_executeStatement copy) ih) world
  | case2 statementStart hfound =>
      refine ended_copyInto_bind (fun copy => Ended.then (ended_executeStatement copy) ?_) world
      exact fun last => .done (List.forall_mem_nil _)

end Line

/-- **A line reports exactly its own failures.** Whatever handlers, resolver, argument parser and
error callback do: a line that returns 0 has reported nothing, a line that stops at a handler
returns what the handler returned and has reported nothing, and any other line that stops has
made one report, as the last thing it did, and returns -1. -/
theorem ended_parseLine (parser : Parser σ) (line : CString) (world : World σ) :
    Ended parser ((parseLine .source parser line).trace world)
      ((parseLine .source parser line).result world) := by
  unfold parseLine
  split
  · exact .done (List.forall_mem_nil _)
  · exact ended_copyInto_bind (fun copy => ended_statementLoop copy) world

/-- Each call of a handler comes right behind the questions to the handlers registered before it,
in order, and the question to the handler itself. -/
def AsksInOrder (parser : Parser σ) (events : List Event) : Prop :=
  ∀ before index command redir after, events = before ++ .handle index command redir :: after →
    questions command 0 (parser.handlers.take index) ++ [.canHandle index command] <:+ before

theorem composable_asksInOrder (parser : Parser σ) : Composable (AsksInOrder parser) where
  nil := fun _ _ _ _ _ hsplit => absurd hsplit.symm (List.append_ne_nil_of_right_ne_nil _ (by simp))
  append := by
    intro first second hfirst hsecond before index command redir after hsplit
    rcases List.append_eq_append_iff.mp hsplit with ⟨more, rfl, hrest⟩ | ⟨more, rfl, hrest⟩
    · exact (hsecond _ _ _ _ _ hrest).trans (List.suffix_append _ _)
    · cases more with
      | nil =>
          exact (hsecond [] _ _ _ _ hrest.symm).trans List.nil_suffix
      | cons event more =>
          obtain ⟨rfl, -⟩ := List.cons.inj hrest
          exact hfirst _ _ _ _ _ rfl

def Event.isCall : Event → Bool
  | .handle _ _ _ => true
  | _ => false

/-- The number of times that a handler is called. -/
def calls (events : List Event) : ℕ := events.countP Event.isCall

/-- A run without calls. -/
theorem asksInOrder_of_no_calls {parser : Parser σ} {events : List Event}
    (hnone : ∀ e ∈ events, e.isCall = false) : AsksInOrder parser events := by
  intro before index command redir after hsplit
  have hcall :=
    hnone (.handle index command redir) (hsplit ▸ List.mem_append_right _ List.mem_cons_self)
  cases hcall

theorem questions_no_calls (command : Command) (first : ℕ) (handlers : List (Handler σ)) :
    ∀ e ∈ questions command first handlers, e.isCall = false := by
  induction handlers generalizing first with
  | nil => exact List.forall_mem_nil _
  | cons handler handlers ih =>
      rw [questions]
      split
      · exact List.forall_mem_cons.mpr ⟨rfl, ih (first + 1)⟩
      · exact ih (first + 1)

/-- Nobody is called before the handlers are asked. -/
theorem prepareStatement_no_calls (limits : Limits) (parser : Parser σ) (statement : CString) :
    (prepareStatement limits parser statement).Leaves fun events =>
      ∀ e ∈ events, e.isCall = false := by
  apply leaves_prepareStatement (composable_forall fun e => e.isCall = false) <;>
    simp [Event.isCall]

section Line

variable {limits : Limits} {parser : Parser σ}

theorem dispatch_asksInOrder (command : Command) (redir : Redirection) :
    (dispatch parser command redir).Leaves fun events =>
      AsksInOrder parser events ∧ calls events ≤ 1 := by
  intro world
  unfold dispatch
  rcases tryHandlers_cases command redir 0 parser.handlers world with ⟨last, htrace, hresult⟩ |
    ⟨asked, handler, rest, before, ret, last, hhandlers, htrace, -, hresult⟩
  · have hnone : ∀ e ∈ (dispatch parser command redir).trace world, e.isCall = false := by
      unfold dispatch
      rw [trace_bind_of_eq hresult, htrace, trace_emitError_pure]
      exact List.forall_mem_append.mpr
        ⟨questions_no_calls command 0 _, List.forall_mem_singleton.mpr rfl⟩
    refine ⟨asksInOrder_of_no_calls hnone, ?_⟩
    exact (List.countP_eq_zero.mpr fun e he => Bool.eq_false_iff.mp (hnone e he)).le.trans
      (Nat.zero_le 1)
  · rw [trace_bind_of_eq hresult, trace_pure, List.append_nil, htrace, Nat.zero_add,
      List.append_cons]
    have hnone : ∀ e ∈ questions command 0 asked ++ [.canHandle asked.length command],
        e.isCall = false :=
      List.forall_mem_append.mpr ⟨questions_no_calls command 0 asked,
        List.forall_mem_singleton.mpr rfl⟩
    constructor
    · intro earlier index seen operands after hsplit
      have hnotMem : Event.handle index seen operands ∉
          questions command 0 asked ++ [.canHandle asked.length command] := fun hmem => by
        cases hnone _ hmem
      obtain ⟨rfl, hcall, -⟩ := (List.append_cons_inj_of_notMem hnotMem List.not_mem_nil).mp hsplit
      obtain ⟨rfl, rfl, -⟩ := Event.handle.inj hcall
      rw [hhandlers, List.take_left]
    · rw [calls, List.countP_append,
        List.countP_eq_zero.mpr fun e he => Bool.eq_false_iff.mp (hnone e he)]
      exact le_rfl

theorem executeStatement_asksInOrder (statement : CString) :
    (executeStatement limits parser statement).Leaves fun events =>
      AsksInOrder parser events ∧ calls events ≤ 1 := by
  intro world
  have hnone := prepareStatement_no_calls limits parser statement world
  have hzero : calls ((prepareStatement limits parser statement).trace world) = 0 :=
    List.countP_eq_zero.mpr fun e he => Bool.eq_false_iff.mp (hnone e he)
  unfold executeStatement
  cases hprepare : (prepareStatement limits parser statement).result world with
  | none =>
      rw [trace_bind_of_none hprepare, hzero]
      exact ⟨asksInOrder_of_no_calls hnone, Nat.zero_le 1⟩
  | some out =>
      obtain ⟨prepared, last⟩ := out
      rw [trace_bind_of_eq hprepare, calls, List.countP_append]
      change _ ∧ calls _ + calls _ ≤ 1
      rw [hzero, Nat.zero_add]
      cases prepared with
      | ends ret =>
          rw [trace_pure, List.append_nil]
          exact ⟨asksInOrder_of_no_calls hnone, Nat.zero_le 1⟩
      | ready command redir =>
          have hdispatch : AsksInOrder parser ((dispatch parser command redir).trace last) ∧
              calls ((dispatch parser command redir).trace last) ≤ 1 :=
            dispatch_asksInOrder command redir last
          obtain ⟨horder, hcalls⟩ := hdispatch
          exact ⟨(composable_asksInOrder parser).append (asksInOrder_of_no_calls hnone) horder,
            hcalls⟩

end Line

/-- A text that is cut at its first semicolon. -/
theorem count_semicolon_of_strchr {text statement rest : CString}
    (hfound : strchr text semicolon = some (statement, rest)) :
    text.count semicolon = rest.tail.count semicolon + 1 := by
  obtain ⟨rfl, hfirst, after, rfl⟩ := strchr_eq_some hfound
  rw [List.count_append, List.count_eq_zero_of_not_mem hfirst, Nat.zero_add, List.count_cons_self,
    List.tail_cons]

theorem atMost_calls_statementLoop (limits : Limits) (parser : Parser σ)
    (statementStart : CString) : AtMost Event.isCall (statementStart.count semicolon + 1)
      (statementLoop limits parser statementStart) := by
  have hcopy (text : CString) : AtMost Event.isCall 0
      (copyInto limits .singleStatement text : Cli σ CString) :=
    Leaves.atMost (sequential_copyInto (sequential_forall _) (fun _ _ => emit_forall rfl) _ _ _)
  have hexecute (text : CString) : AtMost Event.isCall 1 (executeStatement limits parser text) :=
    fun world => (executeStatement_asksInOrder text world).2
  fun_induction statementLoop limits parser statementStart with
  | case1 statementStart statement statementEnd hfound ih =>
      have hcount := count_semicolon_of_strchr hfound
      have hlimit : statementStart.count semicolon + 1 =
          0 + (1 + (statementEnd.tail.count semicolon + 1)) := by omega
      rw [hlimit]
      refine atMost_bind (hcopy _) fun copy => atMost_bind (hexecute copy) fun result => ?_
      split
      · exact (atMost_pure _ 0 result).mono (Nat.zero_le _)
      · exact ih
  | case2 statementStart hfound =>
      have hlimit : statementStart.count semicolon + 1 =
          0 + (1 + statementStart.count semicolon) := by omega
      rw [hlimit]
      refine atMost_bind (hcopy _) fun copy => atMost_bind (hexecute copy) fun result => ?_
      split <;> exact (atMost_pure _ 0 _).mono (Nat.zero_le _)

/-- **The handlers are asked in order.** In every line, a handler is called right behind the
questions about the same command to the handlers registered before it, in their order, and to
itself, and no more handlers are called than the line has statements. -/
theorem parseLine_asksInOrder (parser : Parser σ) (line : CString) (world : World σ) :
    AsksInOrder parser ((parseLine .source parser line).trace world) ∧
      calls ((parseLine .source parser line).trace world) ≤ line.count semicolon + 1 := by
  constructor
  · have hP := composable_asksInOrder parser
    have hcopied (buffer : Buffer) (text : CString) :
        (emit (.copied buffer text) : Cli σ PUnit).Leaves (AsksInOrder parser) :=
      leaves_emit (asksInOrder_of_no_calls (List.forall_mem_singleton.mpr rfl))
    exact sequential_parseLine hP.sequential hcopied
      (fun statement world => (executeStatement_asksInOrder statement world).1) line world
  · unfold parseLine
    cases hcomment : skipComments line with
    | none => exact Nat.zero_le _
    | some nonComment =>
        have hsuffix : nonComment <:+ line := by
          rw [skipComments] at hcomment
          split_ifs at hcomment
          obtain rfl := Option.some.inj hcomment
          obtain ⟨spaces, hspaces, -⟩ := exists_spaces_append_skipSpaces line
          exact ⟨spaces, hspaces.symm⟩
        have hfit : (Limits.source.fit .lineCopy nonComment).count semicolon ≤
            line.count semicolon :=
          ((List.take_sublist _ _).count_le _).trans (hsuffix.sublist.count_le _)
        have hloop := atMost_calls_statementLoop .source parser
          (Limits.source.fit .lineCopy nonComment) world
        change calls ((copyInto .source .lineCopy nonComment >>= _).trace world) ≤ _
        rw [trace_bind_of_eq (result_copyInto _ _ _ _)]
        exact hloop.trans (Nat.add_le_add_right hfit 1)

end BasC
