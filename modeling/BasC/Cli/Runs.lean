/-
# Rules for whole runs

A property of traces that composes holds of every run of the parser once it holds of what
the pieces leave: a copy, an error report, a handler's event, the first filling of
`cmd_argv` and one alias expansion. The same rules show that handlers are called with
nothing but the command offered.
-/

import BasC.Cli.Offered

namespace BasC

open CChar Lib Traced

variable {σ : Type}

section Rules

variable {R : ∀ α : Type, Cli σ α → Prop} {limits : Limits} {parser : Parser σ}

theorem sequential_copyInto (hR : Sequential R)
    (hcopied : ∀ buffer text, R PUnit (emit (.copied buffer text))) (limits : Limits)
    (buffer : Buffer) (text : CString) : R CString (copyInto limits buffer text) :=
  hR.bind (hcopied buffer text) fun _ => hR.pure _

theorem sequential_emitError (hR : Sequential R)
    (herror : ∀ message, R PUnit (emit (.error message)))
    (parser : Parser σ) (message : CString) : R PUnit (emitError parser message) := by
  refine hR.bind (herror message) fun _ => ?_
  cases parser.errorCallback with
  | none => exact hR.pure _
  | some callback => exact hR.update _

theorem sequential_lookupAlias (hR : Sequential R) (parser : Parser σ) (name : CString) :
    R (Option CString) (lookupAlias parser name) := by
  refine hR.bind hR.current fun world => ?_
  split
  · exact hR.update _
  · exact hR.pure _
  · exact hR.pure _

theorem sequential_parseArgs (hR : Sequential R)
    (hparsed : ∀ site text out, R PUnit (emit (.parsed site text out))) (parser : Parser σ)
    (site : ParseSite) (text : CString) : R ArgsOut (parseArgs parser site text) :=
  hR.bind (hR.update _) fun out => hR.bind (hparsed site text out) fun _ => hR.pure _

theorem sequential_parseArguments (hR : Sequential R)
    (hparsed : ∀ site text out, R PUnit (emit (.parsed site text out))) (parser : Parser σ)
    (args : Option CString) : R ArgsOut (parseArguments parser args) := by
  cases args with
  | none => exact hR.pure _
  | some text => exact sequential_parseArgs hR hparsed parser .arguments text

theorem sequential_fillCommand (hR : Sequential R)
    (herror : ∀ message, R PUnit (emit (.error message)))
    (hassign : ∀ stores, R PUnit (assign stores)) (parser : Parser σ) (cmdName : CString)
    (out : ArgsOut) : R (Option Expanding) (fillCommand parser cmdName out) := by
  unfold fillCommand
  split
  · exact hR.bind (sequential_emitError hR herror _ _) fun _ => hR.pure _
  · exact hR.bind (hassign _) fun _ => hR.pure _

theorem sequential_rebuildCommand (hR : Sequential R)
    (hcopied : ∀ buffer text, R PUnit (emit (.copied buffer text)))
    (herror : ∀ message, R PUnit (emit (.error message)))
    (hassign : ∀ stores, R PUnit (assign stores)) (limits : Limits) (parser : Parser σ)
    (out : ArgsOut) : R (Option Expanding) (rebuildCommand limits parser out) := by
  unfold rebuildCommand
  split
  · exact hR.bind (sequential_emitError hR herror _ _) fun _ => hR.pure _
  · split
    · exact hR.bind (sequential_emitError hR herror _ _) fun _ => hR.pure _
    · refine hR.bind (sequential_copyInto hR hcopied _ _ _) fun cmdName => ?_
      exact hR.bind (hassign _) fun _ => hR.pure _

theorem sequential_expandAliases (hR : Sequential R)
    (herror : ∀ message, R PUnit (emit (.error message)))
    (hexpand : ∀ value st, R (Option Expanding) (expandAlias limits parser value st)) (left : ℕ)
    (st : Expanding) : R (Option Command) (expandAliases limits parser left st) := by
  induction left generalizing st with
  | zero => exact hR.bind (sequential_emitError hR herror _ _) fun _ => hR.pure _
  | succ left ih =>
      refine hR.bind (sequential_lookupAlias hR parser _) fun found => ?_
      split
      · exact hR.pure _
      · refine hR.bind (hexpand _ st) fun next => ?_
        cases next with
        | none => exact hR.pure _
        | some next => exact ih next

/-- **The rule for statements, up to the handlers.** -/
theorem sequential_prepareStatement (hR : Sequential R)
    (hcopied : ∀ buffer text, R PUnit (emit (.copied buffer text)))
    (herror : ∀ message, R PUnit (emit (.error message)))
    (hstart : ∀ cmdName args, R (Option Expanding) (startCommand parser cmdName args))
    (hexpand : ∀ value st, R (Option Expanding) (expandAlias limits parser value st))
    (statement : CString) : R Prepared (prepareStatement limits parser statement) := by
  unfold prepareStatement
  split
  · exact hR.pure _
  · split
    · exact hR.pure _
    · refine hR.bind (sequential_copyInto hR hcopied _ _ _) fun cmdCopy => ?_
      refine hR.bind (sequential_copyInto hR hcopied _ _ _) fun cmdName => ?_
      split
      · exact hR.pure _
      · refine hR.bind (hstart _ _) fun started => ?_
        cases started with
        | none => exact hR.pure _
        | some st =>
            refine hR.bind (sequential_expandAliases hR herror hexpand _ st) fun command => ?_
            cases command with
            | none => exact hR.pure _
            | some command => exact hR.pure _

theorem sequential_tryHandlers (hR : Sequential R) {command : Command} {redir : Redirection}
    (hcanHandle : ∀ index, R PUnit (emit (.canHandle index command)))
    (hhandle : ∀ index, R PUnit (emit (.handle index command redir))) (index : ℕ)
    (handlers : List (Handler σ)) : R (Option ℤ) (tryHandlers command redir index handlers) := by
  induction handlers generalizing index with
  | nil => exact hR.pure _
  | cons handler handlers ih =>
      unfold tryHandlers
      cases handler.canHandle with
      | none => exact ih (index + 1)
      | some canHandle =>
          refine hR.bind (hcanHandle index) fun _ => ?_
          refine hR.bind (hR.update _) fun accepted => ?_
          split
          · refine hR.bind (hhandle index) fun _ => ?_
            exact hR.bind (hR.update _) fun _ => hR.pure _
          · exact ih (index + 1)

theorem sequential_dispatch (hR : Sequential R)
    (herror : ∀ message, R PUnit (emit (.error message))) {command : Command}
    {redir : Redirection} (hcanHandle : ∀ index, R PUnit (emit (.canHandle index command)))
    (hhandle : ∀ index, R PUnit (emit (.handle index command redir))) :
    R ℤ (dispatch parser command redir) := by
  refine hR.bind (sequential_tryHandlers hR hcanHandle hhandle 0 parser.handlers) fun out => ?_
  cases out with
  | some result => exact hR.pure _
  | none => exact hR.bind (sequential_emitError hR herror _ _) fun _ => hR.pure _

/-- The loop over the statements of a line is made of its statements. -/
theorem sequential_statementLoop (hR : Sequential R)
    (hcopied : ∀ buffer text, R PUnit (emit (.copied buffer text)))
    (hexecute : ∀ statement, R ℤ (executeStatement limits parser statement))
    (statementStart : CString) : R ℤ (statementLoop limits parser statementStart) := by
  fun_induction statementLoop limits parser statementStart with
  | case1 statementStart statement statementEnd hfound ih =>
      refine hR.bind (sequential_copyInto hR hcopied _ _ _) fun singleStatement => ?_
      refine hR.bind (hexecute _) fun result => ?_
      split
      · exact hR.pure _
      · exact ih
  | case2 statementStart hfound =>
      refine hR.bind (sequential_copyInto hR hcopied _ _ _) fun singleStatement => ?_
      refine hR.bind (hexecute _) fun result => ?_
      split <;> exact hR.pure _

/-- **The rule for lines.** -/
theorem sequential_parseLine (hR : Sequential R)
    (hcopied : ∀ buffer text, R PUnit (emit (.copied buffer text)))
    (hexecute : ∀ statement, R ℤ (executeStatement limits parser statement)) (line : CString) :
    R ℤ (parseLine limits parser line) := by
  unfold parseLine
  split
  · exact hR.pure _
  · exact hR.bind (sequential_copyInto hR hcopied _ _ _) fun lineCopy =>
      sequential_statementLoop hR hcopied hexecute lineCopy

end Rules

/-- A property of each event composes. -/
theorem composable_forall (Q : Event → Prop) : Composable fun events => ∀ e ∈ events, Q e where
  nil := by simp
  append := by
    intro first second hfirst hsecond
    exact List.forall_mem_append.mpr ⟨hfirst, hsecond⟩

theorem sequential_forall (Q : Event → Prop) :
    Sequential fun (α : Type) (m : Cli σ α) => m.Leaves fun events => ∀ e ∈ events, Q e :=
  (composable_forall Q).sequential

theorem emit_forall {Q : Event → Prop} {event : Event} (hevent : Q event) :
    (emit event : Cli σ PUnit).Leaves fun events => ∀ e ∈ events, Q e :=
  leaves_emit (List.forall_mem_singleton.mpr hevent)

/-- An event in which no handler takes part. -/
def Event.BeforeHandlers : Event → Prop
  | .canHandle _ _ => False
  | .handle _ _ _ => False
  | _ => True

/-- An event in which a handler sees this command, or none takes part. -/
def Event.Concerns (command : Command) (redir : Redirection) : Event → Prop
  | .canHandle _ seen => seen = command
  | .handle _ seen operands => seen = command ∧ operands = redir
  | _ => True

theorem leaves_assign {P : List Event → Prop} (hP : Composable P)
    (hstored : ∀ store, P [.stored store]) (stores : List Store) :
    (assign stores : Cli σ PUnit).Leaves P := by
  induction stores with
  | nil => exact hP.sequential.pure _
  | cons store stores ih =>
      unfold assign
      split
      · exact hP.sequential.bind (leaves_emit (hstored store)) fun _ => ih
      · exact fun _ => hstored store

theorem assign_forall {Q : Event → Prop} (hstored : ∀ store, Q (.stored store))
    (stores : List Store) :
    (assign stores : Cli σ PUnit).Leaves fun events => ∀ e ∈ events, Q e :=
  leaves_assign (composable_forall Q) (fun store => List.forall_mem_singleton.mpr (hstored store))
    stores

/-- **The rule for statements, up to the handlers,** from the events of their pieces. -/
theorem leaves_prepareStatement {P : List Event → Prop} (hP : Composable P)
    (hcopied : ∀ buffer text, P [.copied buffer text]) (herror : ∀ message, P [.error message])
    (hparsed : ∀ site text out, P [.parsed site text out]) (hstored : ∀ store, P [.stored store])
    (limits : Limits) (parser : Parser σ) (statement : CString) :
    (prepareStatement limits parser statement).Leaves P := by
  have hR : Sequential fun (α : Type) (m : Cli σ α) => m.Leaves P := hP.sequential
  have hassign : ∀ stores, (assign stores : Cli σ PUnit).Leaves P := leaves_assign hP hstored
  have hcopy : ∀ buffer text, (emit (.copied buffer text) : Cli σ PUnit).Leaves P :=
    fun buffer text => leaves_emit (hcopied buffer text)
  have hreport : ∀ message, (emit (.error message) : Cli σ PUnit).Leaves P :=
    fun message => leaves_emit (herror message)
  have hparse : ∀ site text out, (emit (.parsed site text out) : Cli σ PUnit).Leaves P :=
    fun site text out => leaves_emit (hparsed site text out)
  apply sequential_prepareStatement hR hcopy hreport
  · intro cmdName args
    exact hR.bind (sequential_parseArguments hR hparse _ _) fun out =>
      sequential_fillCommand hR hreport hassign _ _ _
  · intro value st
    refine hR.bind (hcopy _ _) fun _ => ?_
    exact hR.bind (sequential_parseArgs hR hparse _ _ _) fun out =>
      sequential_rebuildCommand hR hcopy hreport hassign _ _ _

theorem prepareStatement_beforeHandlers (limits : Limits) (parser : Parser σ)
    (statement : CString) :
    (prepareStatement limits parser statement).Leaves fun events =>
      ∀ e ∈ events, e.BeforeHandlers := by
  apply leaves_prepareStatement (composable_forall Event.BeforeHandlers) <;>
    simp [Event.BeforeHandlers]

theorem dispatch_concerns (parser : Parser σ) (command : Command) (redir : Redirection) :
    (dispatch parser command redir).Leaves fun events =>
      ∀ e ∈ events, e.Concerns command redir := by
  apply sequential_dispatch (sequential_forall (Event.Concerns command redir))
  · exact fun message => emit_forall trivial
  · exact fun index => emit_forall rfl
  · exact fun index => emit_forall ⟨rfl, rfl⟩

/-- **Handlers see the command offered and no other.** -/
theorem offered_of_mem_trace {limits : Limits} {parser : Parser σ} {statement : CString}
    {world : World σ} {e : Event}
    (he : e ∈ (executeStatement limits parser statement).trace world) :
    e.BeforeHandlers ∨ ∃ command redir,
      offered limits parser statement world = some (command, redir) ∧ e.Concerns command redir := by
  unfold executeStatement at he
  rw [trace_bind] at he
  rcases List.mem_append.mp he with he | he
  · exact .inl (prepareStatement_beforeHandlers limits parser statement world e he)
  · cases hresult : (prepareStatement limits parser statement).result world with
    | none => simp [hresult] at he
    | some out =>
        obtain ⟨prepared, world'⟩ := out
        rw [hresult, Option.elim_some] at he
        cases prepared with
        | ends ret => simp at he
        | ready command redir =>
            refine .inr ⟨command, redir, ?_, dispatch_concerns parser command redir world' e he⟩
            rw [offered, hresult]
            rfl

/-- The first handler takes every command. -/
def TakesAll (parser : Parser σ) : Prop :=
  ∃ handler rest canHandle, parser.handlers = handler :: rest ∧
    handler.canHandle = some canHandle ∧ ∀ command world, (canHandle command world).1 = true

/-- **The command offered is the command handled.** A handler that takes every command is
called with exactly the command offered. -/
theorem handle_mem_trace_iff {limits : Limits} {parser : Parser σ} (htakes : TakesAll parser)
    (statement : CString) (world : World σ) (command : Command) (redir : Redirection) :
    (∃ index,
        .handle index command redir ∈ (executeStatement limits parser statement).trace world) ↔
      offered limits parser statement world = some (command, redir) := by
  constructor
  · rintro ⟨index, he⟩
    obtain hbefore | ⟨seen, operands, hoffered, hconcerns⟩ := offered_of_mem_trace he
    · exact absurd hbefore id
    · obtain ⟨rfl, rfl⟩ := hconcerns
      exact hoffered
  · intro hoffered
    obtain ⟨handler, rest, canHandle, hhandlers, hcan, haccepts⟩ := htakes
    obtain ⟨⟨prepared, world'⟩, hresult, hcommand⟩ := Option.bind_eq_some_iff.mp hoffered
    cases prepared with
    | ends ret => cases hcommand
    | ready seen operands =>
        obtain ⟨rfl, rfl⟩ : seen = command ∧ operands = redir := by
          simpa [Prepared.command?] using hcommand
        refine ⟨0, ?_⟩
        unfold executeStatement
        rw [trace_bind, hresult, Option.elim_some]
        apply List.mem_append_right
        unfold dispatch
        rw [trace_bind, hhandlers]
        apply List.mem_append_left
        unfold tryHandlers
        rw [hcan]
        simp [trace_bind, haccepts]

/-- Two statements are offered as the same command exactly when a handler that takes every
command is called alike. -/
theorem offered_eq_iff_handled {limits : Limits} {parser : Parser σ} (htakes : TakesAll parser)
    (first second : CString) (world : World σ) :
    offered limits parser first world = offered limits parser second world ↔
      ∀ command redir,
        (∃ index, .handle index command redir ∈
            (executeStatement limits parser first).trace world) ↔
          ∃ index, .handle index command redir ∈
            (executeStatement limits parser second).trace world := by
  simp only [handle_mem_trace_iff htakes]
  constructor
  · intro hsame command redir
    rw [hsame]
  · intro hsame
    apply Option.ext
    rintro ⟨command, redir⟩
    exact hsame command redir

end BasC
