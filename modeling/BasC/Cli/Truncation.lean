/-
# Texts cut at the end of a buffer

Five fixed buffers cut a text that is too long for them, and the parser goes on with what
is left. This module compares the parser with one whose buffers hold any text: the two do
the same until a text does not fit, so every handler called before that sees the complete
texts.
-/

import BasC.Cli.Runs
import BasC.Cli.Statements

namespace BasC

open CChar Lib Traced

variable {σ : Type}

/-- A text is copied into a buffer that it does not fit. -/
def Event.Misfit : Event → Prop
  | .copied buffer text => buffer.size ≤ text.length
  | _ => False

/-- The two parsers do the same until a text does not fit. -/
abbrev SameUntilMisfit {α : Type} (m m' : Cli σ α) : Prop := AgreeUntil Event.Misfit m m'

/-- A run without a misfit agrees with itself. -/
theorem sameUntilMisfit_refl {α : Type} {m : Cli σ α}
    (hfits : m.Leaves fun events => ∀ e ∈ events, ¬ e.Misfit) : SameUntilMisfit m m :=
  agreeUntil_refl hfits

theorem emitError_fits (parser : Parser σ) (message : CString) :
    (emitError parser message).Leaves fun events => ∀ e ∈ events, ¬ e.Misfit :=
  sequential_emitError (sequential_forall _) (fun _ => emit_forall id) parser message

theorem assign_fits (stores : List Store) :
    (assign stores : Cli σ PUnit).Leaves fun events => ∀ e ∈ events, ¬ e.Misfit :=
  assign_forall (fun _ => id) stores

theorem parseArgs_fits (parser : Parser σ) (site : ParseSite) (text : CString) :
    (parseArgs parser site text).Leaves fun events => ∀ e ∈ events, ¬ e.Misfit :=
  sequential_parseArgs (sequential_forall _) (fun _ _ _ => emit_forall id) parser site text

theorem lookupAlias_fits (parser : Parser σ) (name : CString) :
    (lookupAlias parser name).Leaves fun events => ∀ e ∈ events, ¬ e.Misfit :=
  sequential_lookupAlias (sequential_forall _) parser name

theorem startCommand_fits (parser : Parser σ) (cmdName : CString) (args : Option CString) :
    (startCommand parser cmdName args).Leaves fun events => ∀ e ∈ events, ¬ e.Misfit := by
  have hR := sequential_forall (σ := σ) fun e => ¬ e.Misfit
  refine hR.bind ?_ fun out => ?_
  · exact sequential_parseArguments hR (fun _ _ _ => emit_forall id) parser args
  · exact sequential_fillCommand hR (fun _ => emit_forall id) assign_fits parser cmdName out

theorem dispatch_fits (parser : Parser σ) (command : Command) (redir : Redirection) :
    (dispatch parser command redir).Leaves fun events => ∀ e ∈ events, ¬ e.Misfit :=
  sequential_dispatch (sequential_forall _) (fun _ => emit_forall id) (fun _ => emit_forall id)
    fun _ => emit_forall id

theorem sameUntilMisfit_copyInto (buffer : Buffer) (text : CString) :
    SameUntilMisfit (copyInto .source buffer text : Cli σ CString)
      (copyInto .unlimited buffer text) := by
  refine agreeUntil_emit_bind fun hfits => ?_
  have hwhole : Limits.source.fit buffer text = Limits.unlimited.fit buffer text :=
    source_fit_eq_self (Nat.lt_of_not_le hfits)
  rw [hwhole]
  exact agreeUntil_pure _

theorem sameUntilMisfit_rebuildCommand (parser : Parser σ) (out : ArgsOut) :
    SameUntilMisfit (rebuildCommand .source parser out) (rebuildCommand .unlimited parser out) := by
  have hfail : ∀ (message : CString) (value : Option Expanding),
      SameUntilMisfit (do emitError parser message; pure value)
        (do emitError parser message; pure value) := fun _ _ =>
    agreeUntil_bind (sameUntilMisfit_refl (emitError_fits parser _)) fun _ => agreeUntil_pure _
  unfold rebuildCommand
  split
  · exact hfail _ _
  · split
    · exact hfail _ _
    · refine agreeUntil_bind (sameUntilMisfit_copyInto _ _) fun cmdName => ?_
      exact agreeUntil_bind (sameUntilMisfit_refl (assign_fits _)) fun _ => agreeUntil_pure _

theorem sameUntilMisfit_expandAlias (parser : Parser σ) (value : CString) (st : Expanding) :
    SameUntilMisfit (expandAlias .source parser value st)
      (expandAlias .unlimited parser value st) := by
  refine agreeUntil_emit_bind fun hfits => ?_
  have hwhole : expandedCmd .source value st.parsedArgv =
      expandedCmd .unlimited value st.parsedArgv := by
    rw [expandedCmd_eq, expandedCmd_eq]
    exact source_fit_eq_self (Nat.lt_of_not_le hfits)
  rw [hwhole]
  exact agreeUntil_bind (sameUntilMisfit_refl (parseArgs_fits parser _ _)) fun out =>
    sameUntilMisfit_rebuildCommand parser out

theorem sameUntilMisfit_expandAliases (parser : Parser σ) (left : ℕ) (st : Expanding) :
    SameUntilMisfit (expandAliases .source parser left st)
      (expandAliases .unlimited parser left st) := by
  induction left generalizing st with
  | zero =>
      exact agreeUntil_bind (sameUntilMisfit_refl (emitError_fits parser _)) fun _ =>
        agreeUntil_pure _
  | succ left ih =>
      refine agreeUntil_bind (sameUntilMisfit_refl (lookupAlias_fits parser _)) fun found => ?_
      split
      · exact agreeUntil_pure _
      · refine agreeUntil_bind (sameUntilMisfit_expandAlias parser _ st) fun next => ?_
        cases next with
        | none => exact agreeUntil_pure _
        | some next => exact ih next

theorem sameUntilMisfit_prepareStatement (parser : Parser σ) (statement : CString) :
    SameUntilMisfit (prepareStatement .source parser statement)
      (prepareStatement .unlimited parser statement) := by
  unfold prepareStatement
  split
  · exact agreeUntil_pure _
  · split
    · exact agreeUntil_pure _
    · refine agreeUntil_bind (sameUntilMisfit_copyInto _ _) fun cmdCopy => ?_
      refine agreeUntil_bind (sameUntilMisfit_copyInto _ _) fun cmdName => ?_
      split
      · exact agreeUntil_pure _
      · refine agreeUntil_bind (sameUntilMisfit_refl (startCommand_fits parser _ _)) fun st => ?_
        cases st with
        | none => exact agreeUntil_pure _
        | some st =>
            refine agreeUntil_bind (sameUntilMisfit_expandAliases parser _ st) fun command => ?_
            cases command with
            | none => exact agreeUntil_pure _
            | some command => exact agreeUntil_pure _

theorem sameUntilMisfit_executeStatement (parser : Parser σ) (statement : CString) :
    SameUntilMisfit (executeStatement .source parser statement)
      (executeStatement .unlimited parser statement) := by
  refine agreeUntil_bind (sameUntilMisfit_prepareStatement parser statement) fun prepared => ?_
  cases prepared with
  | ends ret => exact agreeUntil_pure ret
  | ready command redir => exact sameUntilMisfit_refl (dispatch_fits parser command redir)

theorem sameUntilMisfit_runStatements (parser : Parser σ) (statements : List CString) :
    SameUntilMisfit (runStatements .source parser statements)
      (runStatements .unlimited parser statements) := by
  induction statements with
  | nil => exact agreeUntil_pure 0
  | cons statement statements ih =>
      refine agreeUntil_bind (sameUntilMisfit_copyInto _ _) fun singleStatement => ?_
      refine agreeUntil_bind (sameUntilMisfit_executeStatement parser _) fun result => ?_
      split
      · exact agreeUntil_pure result
      · exact ih

theorem sameUntilMisfit_parseLine (parser : Parser σ) (line : CString) :
    SameUntilMisfit (parseLine .source parser line) (parseLine .unlimited parser line) := by
  unfold parseLine
  split
  · exact agreeUntil_pure 0
  · refine agreeUntil_bind (sameUntilMisfit_copyInto _ _) fun lineCopy => ?_
    rw [statementLoop_eq, statementLoop_eq]
    exact sameUntilMisfit_runStatements parser _

/-- The name of the command that a handler is called with. -/
def Event.handledName? : Event → Option CString
  | .handle _ command _ => some command.cmdName
  | _ => none

end BasC
