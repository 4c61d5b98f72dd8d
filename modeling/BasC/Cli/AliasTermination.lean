/-
# The alias loop ends

The loop gives up after ten expansions, so that circular aliases come to an error and no
handler is called by the name of an alias. Two things go wrong on the way. `cmd_argv` is
filled again after each expansion without a check of the count, and a circular alias whose
value has more words than its name grows the vector until it is overrun. And a first token
that is longer than `cmd_name` is looked up by its first 255 bytes.

This module determines the statements for which aliases resolve as they should.
-/

import BasC.Cli.AliasCycles

namespace BasC

open CChar Lib Traced

variable {σ : Type}

/-- The argument counts that the fill after this parse has slots for. -/
def ParseSite.HasRoom : ParseSite → ℤ → Prop
  | .arguments, argc => -1 ≤ argc ∧ argc ≤ 63
  | .expandedAlias, argc => argc ≤ 64

/-- A successful parse gives a count that there are slots for. -/
def Event.FitsVector : Event → Prop
  | .parsed site _ out => out.ret = 0 → site.HasRoom out.argc
  | _ => True

/-- An error report comes to its end. -/
theorem result_emitError_pure {α : Type} (parser : Parser σ) (message : CString) (value : α)
    (world : World σ) :
    (do emitError parser message; pure value).result world ≠ none := by
  unfold emitError
  cases parser.errorCallback <;> exact Option.some_ne_none _

/-- A fill comes to its end when all its stores are in the vector. -/
theorem result_assign_pure_ne_none_iff {α : Type} (stores : List Store) (value : α)
    (world : World σ) :
    (do assign stores; pure value).result world ≠ none ↔
      ∀ store ∈ stores, 0 ≤ store.index ∧ store.index < cmdArgvSize := by
  by_cases hinside : ∀ store ∈ stores, 0 ≤ store.index ∧ store.index < cmdArgvSize
  · have hassign := result_assign stores world
    rw [if_pos hinside] at hassign
    rw [result_bind_of_eq hassign]
    exact iff_of_true (Option.some_ne_none _) hinside
  · have hassign := result_assign stores world
    rw [if_neg hinside] at hassign
    rw [result_bind_of_none hassign]
    exact iff_of_false (fun hne => hne rfl) hinside

theorem fillCommand_ends_iff (parser : Parser σ) (cmdName : CString) (out : ArgsOut)
    (world : World σ) :
    (fillCommand parser cmdName out).result world ≠ none ↔
      (out.ret = 0 → ParseSite.arguments.HasRoom out.argc) := by
  unfold fillCommand
  by_cases hret : out.ret = 0
  · rw [if_neg (not_not.mpr hret)]
    simp only
    rw [result_assign_pure_ne_none_iff, firstStores_inside_iff cmdName out.length_strings]
    exact ⟨fun hfits _ => ⟨hfits.1, Int.lt_add_one_iff.mp hfits.2⟩,
      fun hroom => ⟨(hroom hret).1, Int.lt_add_one_iff.mpr (hroom hret).2⟩⟩
  · rw [if_pos hret]
    exact iff_of_true (result_emitError_pure _ _ _ _) fun hzero => absurd hzero hret

theorem rebuildCommand_ends_iff (limits : Limits) (parser : Parser σ) (out : ArgsOut)
    (world : World σ) :
    (rebuildCommand limits parser out).result world ≠ none ↔
      (out.ret = 0 → ParseSite.expandedAlias.HasRoom out.argc) := by
  unfold rebuildCommand
  by_cases hret : out.ret = 0
  · rw [if_neg (not_not.mpr hret)]
    have hlength := out.length_strings
    cases hstrings : out.strings with
    | nil =>
        rw [hstrings, List.length_nil] at hlength
        refine iff_of_true (result_emitError_pure _ _ _ _) fun _ => ?_
        show out.argc ≤ 64
        omega
    | cons first rest =>
        have hcount := ArgsOut.length_cons_strings hstrings
        simp only
        rw [result_bind_of_eq (result_copyInto _ _ _ _), result_assign_pure_ne_none_iff,
          rebuiltStores_inside_iff hcount]
        exact ⟨fun hfits _ => Int.lt_add_one_iff.mp hfits,
          fun hroom => Int.lt_add_one_iff.mpr (hroom hret)⟩
  · rw [if_pos hret]
    exact iff_of_true (result_emitError_pure _ _ _ _) fun hzero => absurd hzero hret

/-- A parse and the fill behind it come to their end exactly when the count has slots. -/
theorem endsIff_parseArgs_bind {α : Type} {parser : Parser σ} {site : ParseSite} {text : CString}
    {fill : ArgsOut → Cli σ α}
    (hends : ∀ out world, (fill out).result world ≠ none ↔
      (out.ret = 0 → site.HasRoom out.argc))
    (hfits : ∀ out, (fill out).Leaves fun events => ∀ e ∈ events, e.FitsVector) :
    EndsIff Event.FitsVector (parseArgs parser site text >>= fill) := by
  intro world
  rw [trace_parseArgs_bind, List.forall_mem_cons]
  refine Iff.trans (hends _ _) ?_
  exact ⟨fun hroom => ⟨hroom, hfits _ _⟩, fun hboth => hboth.1⟩

theorem endsIff_startCommand (parser : Parser σ) (cmdName : CString) (args : Option CString) :
    EndsIff Event.FitsVector (startCommand parser cmdName args) := by
  have hfits : ∀ out, (fillCommand parser cmdName out).Leaves fun events =>
      ∀ e ∈ events, e.FitsVector :=
    fun out => sequential_fillCommand (sequential_forall _) (fun _ => emit_forall trivial)
      (assign_forall fun _ => trivial) parser cmdName out
  cases args with
  | none =>
      intro world
      exact iff_of_true ((fillCommand_ends_iff parser cmdName .initial world).mpr
        fun _ => ⟨by decide, by decide⟩) (hfits .initial world)
  | some text => exact endsIff_parseArgs_bind (fillCommand_ends_iff parser cmdName) hfits

theorem endsIff_expandAlias (limits : Limits) (parser : Parser σ) (value : CString)
    (st : Expanding) : EndsIff Event.FitsVector (expandAlias limits parser value st) := by
  refine (sequential_endsIff Event.FitsVector).bind (endsIff_emit trivial) fun _ => ?_
  refine endsIff_parseArgs_bind (rebuildCommand_ends_iff limits parser) fun out => ?_
  exact sequential_rebuildCommand (sequential_forall _) (fun _ _ => emit_forall trivial)
    (fun _ => emit_forall trivial) (assign_forall fun _ => trivial) limits parser out

theorem endsIff_executeStatement (limits : Limits) (parser : Parser σ) (statement : CString) :
    EndsIff Event.FitsVector (executeStatement limits parser statement) := by
  have hR := sequential_endsIff (σ := World σ) Event.FitsVector
  refine hR.bind ?_ fun prepared => ?_
  · exact sequential_prepareStatement hR (fun _ _ => endsIff_emit trivial)
      (fun _ => endsIff_emit trivial) (endsIff_startCommand parser)
      (endsIff_expandAlias limits parser) statement
  · cases prepared with
    | ends ret => exact hR.pure ret
    | ready command redir =>
        exact sequential_dispatch hR (fun _ => endsIff_emit trivial)
          (fun _ => endsIff_emit trivial) fun _ => endsIff_emit trivial

/-- **A statement comes to its end** exactly when its parses give counts that `cmd_argv` has
slots for. -/
theorem executeStatement_ends_iff (limits : Limits) (parser : Parser σ) (statement : CString)
    (world : World σ) :
    (executeStatement limits parser statement).result world ≠ none ↔
      ∀ site text out,
        .parsed site text out ∈ (executeStatement limits parser statement).trace world →
        out.ret = 0 → site.HasRoom out.argc := by
  rw [endsIff_executeStatement limits parser statement world]
  constructor
  · exact fun hfits site text out hparsed => hfits _ hparsed
  · intro hroom e he
    cases e <;> first | trivial | exact hroom _ _ _ he

/-- No handler has a `can_handle`. -/
def AsksNobody (parser : Parser σ) : Prop := ∀ handler ∈ parser.handlers, handler.canHandle = none

theorem tryHandlers_eq_pure_none (command : Command) (redir : Redirection) (index : ℕ)
    {handlers : List (Handler σ)} (hnobody : ∀ handler ∈ handlers, handler.canHandle = none) :
    tryHandlers command redir index handlers = pure none := by
  induction handlers generalizing index with
  | nil => rfl
  | cons handler handlers ih =>
      rw [List.forall_mem_cons] at hnobody
      unfold tryHandlers
      rw [hnobody.1]
      exact ih (index + 1) hnobody.2

theorem exists_canHandle_mem_tryHandlers (command : Command) (redir : Redirection) (index : ℕ)
    {handlers : List (Handler σ)} (hsomebody : ¬ ∀ handler ∈ handlers, handler.canHandle = none)
    (world : World σ) :
    ∃ asked, .canHandle asked command ∈ (tryHandlers command redir index handlers).trace world := by
  induction handlers generalizing index with
  | nil => exact absurd (fun handler hmem => by cases hmem) hsomebody
  | cons handler handlers ih =>
      unfold tryHandlers
      cases hcan : handler.canHandle with
      | none =>
          apply ih
          intro hrest
          exact hsomebody (List.forall_mem_cons.mpr ⟨hcan, hrest⟩)
      | some canHandle =>
          refine ⟨index, ?_⟩
          rw [trace_bind, trace_emit]
          exact List.mem_append_left _ (List.mem_singleton_self _)

/-- When there is nobody to ask, the command is reported as invalid. -/
theorem dispatch_of_asksNobody {parser : Parser σ} (hnobody : AsksNobody parser)
    (command : Command) (redir : Redirection) (world : World σ) :
    (∃ message, (dispatch parser command redir).trace world = [.error message]) ∧
      ∃ last, (dispatch parser command redir).result world = some (-1, last) := by
  unfold dispatch
  rw [tryHandlers_eq_pure_none command redir 0 hnobody, Traced.pure_bind]
  refine ⟨⟨_, trace_emitError_pure parser _ (-1) world⟩, ?_⟩
  unfold emitError
  cases parser.errorCallback <;> exact ⟨_, rfl⟩

/-- Else somebody is asked about the command. -/
theorem dispatch_asks {parser : Parser σ} (hsomebody : ¬ AsksNobody parser) (command : Command)
    (redir : Redirection) (world : World σ) :
    ∃ index, .canHandle index command ∈ (dispatch parser command redir).trace world := by
  obtain ⟨index, hmem⟩ := exists_canHandle_mem_tryHandlers command redir 0 hsomebody world
  refine ⟨index, ?_⟩
  unfold dispatch
  rw [trace_bind]
  exact List.mem_append_left _ hmem

/-- The command that a handler is asked about or called with. -/
def Event.command? : Event → Option Command
  | .canHandle _ command => some command
  | .handle _ command _ => some command
  | _ => none

/-- No handler is called, an error is reported, and -1 is returned. -/
structure Fails (parser : Parser σ) (statement : CString) (world : World σ) : Prop where
  unhandled : ∀ e ∈ (executeStatement .source parser statement).trace world, e.command? = none
  reported : Reports ((executeStatement .source parser statement).trace world)
  returned : ∃ last, (executeStatement .source parser statement).result world = some (-1, last)

/-- Following first tokens from the command name of the statement meets no name that is no alias:
it goes on forever, or it comes to a text that cannot be parsed or has no token. -/
def NeverLeavesAliases (parser : Parser σ) (statement : CString) (world : World σ) : Prop :=
  ∃ parts, readStatement namesInFull statement = some parts ∧
    ∀ place, startFollowing parser parts.1 parts.2.1 world = some place →
      ∀ count, staysAliased namesInFull parser count place = true

/-- What is expected of a statement: it comes to its end after at most ten expansions;
handlers are asked and called after fewer, and by a name that the last lookup found to be no
alias, right before the first of them is asked; and a statement whose first tokens never leave
the aliases fails. -/
structure ResolvesAliases (parser : Parser σ) (statement : CString) (world : World σ) : Prop where
  ends : (executeStatement .source parser statement).result world ≠ none
  atMostTen : expansions ((executeStatement .source parser statement).trace world) ≤ 10
  noAlias : ∀ e ∈ (executeStatement .source parser statement).trace world,
    ∀ command ∈ e.command?,
      expansions ((executeStatement .source parser statement).trace world) < 10 ∧
        ∃ redir before asked,
          (prepareStatement .source parser statement).result world =
              some (.ready command redir, asked) ∧
            aliasOf parser command.cmdName before = (none, asked) ∧
            ∀ map, before.aliasMap = some map → map.get command.cmdName = none ∧ asked = before
  forever : NeverLeavesAliases parser statement world → Fails parser statement world

/-- The statement has a command name, and there is nobody to ask or its names, as
`cmd_name` holds them, are aliases up to the tenth or until a text cannot be parsed. -/
def ReachesNoHandler (parser : Parser σ) (statement : CString) (world : World σ) : Prop :=
  ∃ parts, readStatement .source statement = some parts ∧
    (AsksNobody parser ∨ resolvesToNothing .source parser parts world = true)

/-! ## When it does -/

/-- A command name that fits its buffer is the same in full. -/
theorem readStatement_source_of_fits {statement : CString}
    {parts : CString × Option CString × Redirection}
    (hread : readStatement namesInFull statement = some parts)
    (hfits : parts.1.length < Buffer.cmdName.size) :
    readStatement .source statement = some parts := by
  unfold readStatement at *
  split at hread
  · cases hread
  · rename_i hne
    rw [if_neg hne]
    split at hread
    · cases hread
    · rename_i nonComment hcomment
      simp only at hread ⊢
      generalize hparse : parseRedirections (namesInFull.fit .cmdCopy nonComment) = redirected
        at hread
      have hsource : parseRedirections (Limits.source.fit .cmdCopy nonComment) = redirected :=
        hparse
      rw [hsource]
      have hfull : namesInFull.fit .cmdName (commandWord redirected.1) =
          commandWord redirected.1 := rfl
      rw [hfull] at hread
      split at hread
      · cases hread
      · rename_i hword
        obtain rfl := Option.some.inj hread
        have hname : Limits.source.fit .cmdName (commandWord redirected.1) =
            commandWord redirected.1 := source_fit_eq_self hfits
        rw [hname, if_neg hword]

/-- **Aliases that are never left reach no handler** when all names of the walk fit
`cmd_name`. -/
theorem reachesNoHandler_of_short_names {parser : Parser σ} {statement : CString}
    {world : World σ} {parts : CString × Option CString × Redirection}
    (hread : readStatement namesInFull statement = some parts)
    (hfits : parts.1.length < Buffer.cmdName.size)
    (hshort : ∀ place, startFollowing parser parts.1 parts.2.1 world = some place →
      ∀ count next, followed namesInFull parser count place = some next →
        next.name.length < Buffer.cmdName.size)
    (hnever : NeverLeavesAliases parser statement world) :
    ReachesNoHandler parser statement world := by
  obtain ⟨parts', hread', hstays⟩ := hnever
  obtain rfl : parts = parts' := Option.some.inj (hread.symm.trans hread')
  refine ⟨parts, readStatement_source_of_fits hread hfits, .inr ?_⟩
  unfold resolvesToNothing
  cases hstart : startFollowing parser parts.1 parts.2.1 world with
  | none => rfl
  | some place =>
      exact staysAliased_source_of_fits (hshort place hstart) (hstays place hstart _)

/-- A run that comes to its end came out of the alias loop. -/
theorem exists_prepared_of_ends {parser : Parser σ} {statement : CString} {world : World σ}
    (hends : (executeStatement .source parser statement).result world ≠ none) :
    ∃ prepared last,
      (prepareStatement .source parser statement).result world = some (prepared, last) := by
  cases hprepare : (prepareStatement .source parser statement).result world with
  | none => exact absurd (result_bind_of_none hprepare) hends
  | some out => exact ⟨out.1, out.2, rfl⟩

theorem command?_of_beforeHandlers {e : Event} (hbefore : e.BeforeHandlers) :
    e.command? = none := by
  cases e <;> first | rfl | exact hbefore.elim

/-- **When a statement fails.** A statement that comes to its end fails exactly when it
reaches no handler. -/
theorem fails_iff {parser : Parser σ} {statement : CString} {world : World σ}
    (hends : (executeStatement .source parser statement).result world ≠ none) :
    Fails parser statement world ↔ ReachesNoHandler parser statement world := by
  obtain ⟨prepared, last, hprepare⟩ := exists_prepared_of_ends hends
  have hbefore : ∀ e ∈ (prepareStatement .source parser statement).trace world,
      e.command? = none := fun e he =>
    command?_of_beforeHandlers (prepareStatement_beforeHandlers .source parser statement world e he)
  have htrace : (executeStatement .source parser statement).trace world = _ :=
    trace_bind_of_eq hprepare
  have hresult : (executeStatement .source parser statement).result world = _ :=
    result_bind_of_eq hprepare
  rcases ensures_prepareStatement .source parser statement world prepared last hprepare with
    ⟨hread, rfl⟩ | ⟨parts, hread, ⟨rfl, hreports, hnothing⟩ | ⟨command, rfl, -, -, hsome⟩⟩
  · -- No command name: 0 is returned.
    refine iff_of_false (fun hfails => ?_) ?_
    · obtain ⟨_, hreturned⟩ := hfails.returned
      rw [hresult, result_pure] at hreturned
      have hzero : (0 : ℤ) = -1 := congrArg Prod.fst (Option.some.inj hreturned)
      exact absurd hzero (by decide)
    · rintro ⟨parts, hparts, -⟩
      rw [hread] at hparts
      cases hparts
  · -- The loop reports an error.
    rw [trace_pure, List.append_nil] at htrace
    refine iff_of_true ⟨?_, ?_, last, hresult⟩ ⟨parts, hread, .inr hnothing⟩
    · rwa [htrace]
    · rwa [htrace]
  · by_cases hnobody : AsksNobody parser
    · obtain ⟨⟨message, hinvalid⟩, last', hreturned⟩ :=
        dispatch_of_asksNobody hnobody command parts.2.2 last
      simp only at htrace hresult
      rw [hinvalid] at htrace
      refine iff_of_true ⟨?_, ⟨message, ?_⟩, last', hresult.trans hreturned⟩
        ⟨parts, hread, .inl hnobody⟩
      · rw [htrace]
        exact List.forall_mem_append.mpr ⟨hbefore, by simp [Event.command?]⟩
      · rw [htrace]
        simp
    · obtain ⟨index, hasked⟩ := dispatch_asks hnobody command parts.2.2 last
      refine iff_of_false (fun hfails => ?_) ?_
      · have hnone := hfails.unhandled (.canHandle index command) (by
          rw [htrace]
          exact List.mem_append_right _ hasked)
        cases hnone
      · rintro ⟨parts', hparts, hnobody' | hnothing⟩
        · exact hnobody hnobody'
        · rw [hread] at hparts
          rw [← Option.some.inj hparts, hsome] at hnothing
          cases hnothing

/-- Expansions are made before the handlers are asked. -/
theorem expansions_executeStatement (parser : Parser σ) (statement : CString)
    (world : World σ) :
    expansions ((executeStatement .source parser statement).trace world) =
      expansions ((prepareStatement .source parser statement).trace world) := by
  unfold executeStatement
  rw [trace_bind, expansions_append]
  cases (prepareStatement .source parser statement).result world with
  | none => rfl
  | some out =>
      obtain ⟨prepared, last⟩ := out
      cases prepared with
      | ends ret => rfl
      | ready command redir =>
          exact Nat.add_eq_left.mpr
            (expansions_eq_zero (dispatch_unexpanded parser command redir last))

theorem atMostTen (parser : Parser σ) (statement : CString) (world : World σ) :
    expansions ((executeStatement .source parser statement).trace world) ≤ 10 := by
  rw [expansions_executeStatement]
  exact atMost_prepareStatement .source parser statement world

/-- **Handlers never see an alias,** and never a command of ten expansions. -/
theorem noAlias_of_mem_trace {parser : Parser σ} {statement : CString} {world : World σ}
    {e : Event} (he : e ∈ (executeStatement .source parser statement).trace world)
    {command : Command} (hcommand : command ∈ e.command?) :
    expansions ((executeStatement .source parser statement).trace world) < 10 ∧
      ∃ redir before asked,
        (prepareStatement .source parser statement).result world =
            some (.ready command redir, asked) ∧
          aliasOf parser command.cmdName before = (none, asked) ∧
          ∀ map, before.aliasMap = some map →
            map.get command.cmdName = none ∧ asked = before := by
  rcases offered_of_mem_trace he with hbefore | ⟨seen, redir, hoffered, hconcerns⟩
  · rw [command?_of_beforeHandlers hbefore] at hcommand
    cases hcommand
  · obtain rfl : seen = command := by
      cases e <;> simp_all [Event.command?, Event.Concerns]
    obtain ⟨⟨prepared, asked⟩, hprepare, hready⟩ := Option.bind_eq_some_iff.mp hoffered
    obtain rfl : prepared = .ready seen redir := by
      cases prepared <;> simp_all [Prepared.command?]
    rcases ensures_prepareStatement .source parser statement world _ asked hprepare with
      ⟨-, hends⟩ | ⟨parts, -, ⟨hends, -⟩ | ⟨command, hcommand', hless, ⟨before, hnone⟩, -⟩⟩
    · cases hends
    · cases hends
    · obtain ⟨rfl, -⟩ := Prepared.ready.inj hcommand'
      rw [expansions_executeStatement]
      refine ⟨hless, redir, before, asked, hprepare, hnone, fun map hmap => ?_⟩
      rw [aliasOf_of_map hmap] at hnone
      exact ⟨congrArg Prod.fst hnone, (congrArg Prod.snd hnone).symm⟩

/-- An alias `a` whose value has `a` in front. -/
theorem neverLeavesAliases_self {rest : CString} (hblank : StartsBlank rest) :
    NeverLeavesAliases bareParser (cstr "a") (aliasWorld (cstr "a" ++ rest)) := by
  have hcycle : AliasCycle bareEnv (aliasTo (cstr "a" ++ rest)) {cstr "a"} := by
    rintro _ rfl
    refine ⟨cstr "a", rest, cstr "a", [], ?_, rfl, by decide +kernel, by decide +kernel,
      by decide +kernel, hblank⟩
    rw [aliasTo_get, if_pos rfl]
  refine ⟨(cstr "a", none, .empty), by decide +kernel, ?_⟩
  rintro _ ⟨⟩ count
  exact staysAliased_of_aliasCycle rfl hcycle (Set.mem_singleton _) rfl count

/-- The value of a circular alias need not be one that can be parsed. -/
example : NeverLeavesAliases bareParser (cstr "a") (aliasWorld (cstr "a" ++ cstr " \"x")) :=
  neverLeavesAliases_self (by rintro _ ⟨⟩; decide)

/-- `a` stands for itself and seven arguments. -/
def growingAlias : CString := cstr "a 1 2 3 4 5 6 7"

end BasC
