/-
# Redirections in and out of order

`cli_parser_parse_redirections` searches the output operator first, then the input, then
the pipe, and everything behind an operator is its operand. Written the other way round,
as `c | p < i > o`, each search finds the last operator that is left, and the three
operands come out as written. In any other order an operand takes the operators behind it
along.
-/

import BasC.Cli.RedirectionCuts

namespace BasC

open CChar Lib

/-- `cli_parser_parse_redirections` with the pointers it is given: its result, the command
buffer and the record behind them. -/
def cliParserParseRedirections (cmdTrim : Option CString) (redir : Option Redirection) :
    ℤ × Option CString × Option Redirection :=
  match cmdTrim, redir with
  | some text, some _ => (0, some (parseRedirections text).1, some (parseRedirections text).2)
  | _, _ => (-1, cmdTrim, redir)

/-- The operators of a command. -/
inductive RedirOp
  | append
  | output
  | input
  | pipe
  deriving DecidableEq

namespace RedirOp

/-- The byte that the operator consists of. -/
def byte : RedirOp → CChar
  | append | output => greater
  | input => less
  | pipe => bar

/-- The operator as it is written. -/
def text : RedirOp → CString
  | append => [greater, greater]
  | op => [op.byte]

theorem isOperator_byte (op : RedirOp) : isOperator op.byte = true := by
  cases op <;> rfl

theorem isspace_byte (op : RedirOp) : isspace op.byte = false := by
  cases op <;> decide

theorem byte_mem_text (op : RedirOp) : op.byte ∈ op.text := by
  cases op <;> exact List.mem_cons_self

theorem head?_text_append (op : RedirOp) (rest : CString) :
    (op.text ++ rest).head? = some op.byte := by
  cases op <;> rfl

theorem getLast?_append_text (op : RedirOp) (front : CString) :
    (front ++ op.text).getLast? = some op.byte := by
  cases op <;> simp [text, byte]

theorem eq_byte_of_mem_text {op : RedirOp} {c : CChar} (hc : c ∈ op.text) : c = op.byte := by
  cases op <;> simpa [text, byte] using hc

end RedirOp

theorem NoOperator.not_mem_byte {text : CString} (hplain : NoOperator text) (op : RedirOp) :
    op.byte ∉ text := fun hin => by
  have hoperator := hplain _ hin
  simp [op.isOperator_byte] at hoperator

/-- One `>` alone is no `>>`. -/
theorem no_double_greater {before after : CString} (hbefore : greater ∉ before)
    (hafter : greater ∉ after) : ¬ [greater, greater] <:+: before ++ greater :: after := by
  intro hin
  have hcount := hin.sublist.count_le greater
  simp [List.count_eq_zero.mpr hbefore, List.count_eq_zero.mpr hafter] at hcount

/-- The only output operator is found, and the mode is that of the operator. -/
theorem takeOutput_of_only {op : RedirOp} (hop : op.byte = greater) {before after : CString}
    (hbefore : greater ∉ before) (hafter : greater ∉ after) :
    ∃ left, takeOutput (before ++ (op.text ++ after)) =
        (left, some (trimWhitespace after), decide (op = .append)) ∧
      dropTrailingSpaces left = dropTrailingSpaces before := by
  cases op with
  | append =>
      have honly : OnlyAt [greater, greater] before after := by
        apply onlyAt_append
        · exact fun hin => hbefore (hin.subset List.mem_cons_self)
        · exact fun hlast => hbefore (List.mem_of_getLast? hlast)
        · exact fun hin => hafter (hin.subset List.mem_cons_self)
        · exact fun hhead => hafter (List.mem_of_head? hhead)
      obtain ⟨left, htake, hleft⟩ := searches_append.take_of_only honly
      refine ⟨left, ?_, hleft⟩
      rw [RedirOp.text, takeOutput_eq_append ⟨before, after, by simp⟩, htake]
      rfl
  | output =>
      obtain ⟨left, htake, hleft⟩ := takeByte_of_only (by decide) hbefore hafter rfl
      refine ⟨left, ?_, hleft⟩
      rw [show RedirOp.output.text = [greater] from rfl, List.singleton_append,
        takeOutput_eq_byte (no_double_greater hbefore hafter), htake]
      rfl
  | input => exact absurd hop (by decide)
  | pipe => exact absurd hop (by decide)

/-- What is written around an operator: white space in front of it, white space behind it,
and an operand without operators. -/
structure Redirect where
  lead : CString
  gap : CString
  operand : CString
  lead_white : White lead
  gap_white : White gap
  operand_plain : NoOperator operand

namespace Redirect

/-- The redirection with its operator. -/
def text (op : RedirOp) (redirect : Redirect) : CString :=
  redirect.lead ++ (op.text ++ (redirect.gap ++ redirect.operand))

variable (redirect : Redirect)

theorem noOperator_of_white {text : CString} (hwhite : White text) : NoOperator text :=
  fun c hc => isOperator_of_isspace (hwhite c hc)

theorem body_plain : NoOperator (redirect.gap ++ redirect.operand) :=
  noOperator_append.mpr ⟨noOperator_of_white redirect.gap_white, redirect.operand_plain⟩

/-- The operator is the only one in its redirection. -/
theorem eq_byte_of_mem_text {op : RedirOp} {c : CChar} (hc : c ∈ redirect.text op)
    (hoperator : isOperator c = true) : c = op.byte := by
  rcases List.mem_append.mp hc with hlead | hrest
  · simp [noOperator_of_white redirect.lead_white c hlead] at hoperator
  · rcases List.mem_append.mp hrest with hop | hbody
    · exact RedirOp.eq_byte_of_mem_text hop
    · simp [redirect.body_plain c hbody] at hoperator

end Redirect

/-- A redirection whose operand has no white space at its ends. -/
structure TrimmedRedirect extends Redirect where
  trimmed : trimWhitespace operand = operand

theorem TrimmedRedirect.trimWhitespace_body (redirect : TrimmedRedirect) :
    trimWhitespace (redirect.gap ++ redirect.operand) = redirect.operand := by
  rw [trimWhitespace_white_append redirect.gap_white, redirect.trimmed]

/-- A redirection, or nothing. -/
def redirectText (op : RedirOp) : Option TrimmedRedirect → CString
  | none => []
  | some redirect => redirect.text op

theorem eq_byte_of_mem_redirectText {op : RedirOp} {redirect : Option TrimmedRedirect}
    {c : CChar} (hc : c ∈ redirectText op redirect) (hoperator : isOperator c = true) :
    c = op.byte := by
  cases redirect with
  | none => exact absurd hc List.not_mem_nil
  | some redirect => exact redirect.eq_byte_of_mem_text hc hoperator

/-- A command with the three redirections in the order of a pipeline. -/
structure OrderedCommand where
  command : CString
  command_plain : NoOperator command
  command_trimmed : trimWhitespace command = command
  pipe : Option TrimmedRedirect
  input : Option TrimmedRedirect
  appendMode : Bool
  output : Option TrimmedRedirect

namespace OrderedCommand

variable (line : OrderedCommand)

/-- The output operator of the command. -/
def outputOp : RedirOp := if line.appendMode then .append else .output

/-- The command with its redirections. -/
def text : CString :=
  line.command ++ (redirectText .pipe line.pipe ++ (redirectText .input line.input ++
    redirectText line.outputOp line.output))

/-- The operands as they are written. -/
def record : Redirection where
  outputFile := line.output.map (·.operand)
  inputFile := line.input.map (·.operand)
  pipeCommand := line.pipe.map (·.operand)
  appendMode := line.output.isSome && line.appendMode

theorem takeOutput_redirectText {front : CString} (hfront : greater ∉ front) :
    ∃ left, takeOutput (front ++ redirectText line.outputOp line.output) =
        (left, line.record.outputFile, line.record.appendMode) ∧
      dropTrailingSpaces left = dropTrailingSpaces front := by
  cases houtput : line.output with
  | none =>
      rw [redirectText, List.append_nil, takeOutput_of_not_mem hfront]
      exact ⟨front, by simp [record, houtput], rfl⟩
  | some redirect =>
      have hbefore : greater ∉ front ++ redirect.lead := by
        rw [List.mem_append, not_or]
        exact ⟨hfront, redirect.lead_white.not_mem (by decide)⟩
      have hbyte : line.outputOp.byte = greater := by
        unfold outputOp
        split <;> rfl
      have hafter := redirect.body_plain.not_mem_byte .output
      obtain ⟨left, htake, hleft⟩ := takeOutput_of_only hbyte hbefore hafter
      rw [redirect.trimWhitespace_body, List.append_assoc] at htake
      rw [dropTrailingSpaces_append_white front redirect.lead_white] at hleft
      refine ⟨left, ?_, hleft⟩
      rw [redirectText, Redirect.text, htake]
      simp [record, houtput, outputOp]

/-- The input and the pipe are searched in the same way. -/
theorem takeByte_redirectText {op : RedirOp} (hop : op.text = [op.byte]) {text front : CString}
    (redirect : Option TrimmedRedirect) (hfront : op.byte ∉ front)
    (htext : dropTrailingSpaces text = dropTrailingSpaces (front ++ redirectText op redirect)) :
    ∃ left, takeOperand (cutByte op.byte) text = (left, redirect.map (·.operand)) ∧
      dropTrailingSpaces left = dropTrailingSpaces front := by
  cases redirect with
  | none =>
      rw [redirectText, List.append_nil] at htext
      exact ⟨text, takeByte_of_not_mem op.isspace_byte hfront htext, htext⟩
  | some redirect =>
      have hbefore : op.byte ∉ front ++ redirect.lead := by
        rw [List.mem_append, not_or]
        exact ⟨hfront, redirect.lead_white.not_mem op.isspace_byte⟩
      have hafter := redirect.body_plain.not_mem_byte op
      rw [redirectText, Redirect.text, hop, ← List.append_assoc] at htext
      obtain ⟨left, htake, hleft⟩ := takeByte_of_only op.isspace_byte hbefore hafter htext
      rw [redirect.trimWhitespace_body] at htake
      rw [dropTrailingSpaces_append_white front redirect.lead_white] at hleft
      exact ⟨left, htake, hleft⟩

/-- **Redirections in order are parsed exactly.** The command is left, and each operand is
the one written, whatever white space there is around the operators. -/
theorem cliParserParseRedirections_text (redir : Redirection) :
    cliParserParseRedirections (some line.text) (some redir) =
      (0, some line.command, some line.record) := by
  have hless : less ∉ line.command ++ redirectText .pipe line.pipe := by
    rw [List.mem_append, not_or]
    refine ⟨line.command_plain.not_mem_byte .input, fun hin => ?_⟩
    exact absurd (eq_byte_of_mem_redirectText hin rfl) (by decide)
  have hgreater : greater ∉ (line.command ++ redirectText .pipe line.pipe) ++
      redirectText .input line.input := by
    rw [List.mem_append, List.mem_append, not_or, not_or]
    refine ⟨⟨line.command_plain.not_mem_byte .output, fun hin => ?_⟩, fun hin => ?_⟩
    · exact absurd (eq_byte_of_mem_redirectText hin rfl) (by decide)
    · exact absurd (eq_byte_of_mem_redirectText hin rfl) (by decide)
  -- each search leaves the text in front of its operator, up to white space
  obtain ⟨left, houtput, hleft⟩ := line.takeOutput_redirectText hgreater
  obtain ⟨rest, hinput, hrest⟩ := takeByte_redirectText rfl line.input hless hleft
  obtain ⟨command, hpipe, hcommand⟩ :=
    takeByte_redirectText rfl line.pipe (line.command_plain.not_mem_byte .pipe) hrest
  have htrimmed : dropTrailingSpaces line.command = line.command := by
    rw [← line.command_trimmed]
    exact dropTrailingSpaces_idempotent _
  have htext : line.text = (line.command ++ redirectText .pipe line.pipe) ++
      redirectText .input line.input ++ redirectText line.outputOp line.output := by
    simp [text]
  rw [cliParserParseRedirections, htext, parseRedirections, houtput, cutInput_eq, cutPipe_eq]
  simp only [RedirOp.byte] at hinput hpipe
  simp only [hinput, hpipe, hcommand, htrimmed]
  rfl

end OrderedCommand

example : parseRedirections (cstr "ls|wc -l <in\t>> out") =
    (cstr "ls", ⟨some (cstr "out"), some (cstr "in"), some (cstr "wc -l"), true⟩) := by
  decide +kernel

/-! ## Any order -/

/-- Redirections one behind the other. -/
def redirectsText (redirects : List (RedirOp × Redirect)) : CString :=
  redirects.flatMap fun redirect => redirect.2.text redirect.1

theorem byte_mem_redirectsText {redirects : List (RedirOp × Redirect)}
    {redirect : RedirOp × Redirect} (hin : redirect ∈ redirects) :
    redirect.1.byte ∈ redirectsText redirects := by
  apply List.mem_flatMap_of_mem hin
  simp [Redirect.text, redirect.1.byte_mem_text]

theorem byte_not_mem_redirectsText {op : RedirOp} {redirects : List (RedirOp × Redirect)}
    (hnot : ∀ redirect ∈ redirects, redirect.1.byte ≠ op.byte) :
    op.byte ∉ redirectsText redirects := by
  intro hin
  obtain ⟨redirect, hredirect, hbyte⟩ := List.mem_flatMap.mp hin
  exact hnot redirect hredirect (redirect.2.eq_byte_of_mem_text hbyte op.isOperator_byte).symm

/-- The field of the record that an operator fills. -/
def Redirection.operand (redir : Redirection) : RedirOp → Option CString
  | .append | .output => redir.outputFile
  | .input => redir.inputFile
  | .pipe => redir.pipeCommand

/-- The operand of an operator that is searched before those behind it takes them along. -/
theorem operand_of_only {op : RedirOp} (hop : op ≠ .pipe) {before after : CString}
    (hbefore : op.byte ∉ before) (hafter : op.byte ∉ after)
    (hgreater : op = .input → greater ∉ before ∧ greater ∉ after) :
    (parseRedirections (before ++ (op.text ++ after))).2.operand op =
      some (trimWhitespace after) := by
  by_cases hinput : op = .input
  · obtain ⟨hfront, hback⟩ := hgreater hinput
    subst hinput
    obtain ⟨left, htake, -⟩ := takeByte_of_only (by decide) hbefore hafter rfl
    have hnot : greater ∉ before ++ less :: after := by
      rw [List.mem_append, List.mem_cons, not_or, not_or]
      exact ⟨hfront, by decide, hback⟩
    rw [show RedirOp.input.text = [less] from rfl, List.singleton_append, parseRedirections,
      takeOutput_of_not_mem hnot, cutInput_eq]
    exact congrArg Prod.snd htake
  · have hbyte : op.byte = greater := by
      cases op <;> first | rfl | contradiction
    rw [hbyte] at hbefore hafter
    obtain ⟨left, htake, -⟩ := takeOutput_of_only hbyte hbefore hafter
    have houtput : (parseRedirections (before ++ (op.text ++ after))).2.outputFile =
        some (trimWhitespace after) := by rw [parseRedirections, htake]
    cases op <;> first | exact houtput | contradiction

theorem operand_redirect {op : RedirOp} (hop : op ≠ .pipe) (redirect : Redirect)
    {front back : CString} (hfront : op.byte ∉ front) (hback : op.byte ∉ back)
    (hgreater : op = .input → greater ∉ front ∧ greater ∉ back) :
    (parseRedirections (front ++ (redirect.text op ++ back))).2.operand op =
      some (trimWhitespace ((redirect.gap ++ redirect.operand) ++ back)) := by
  have hshape : front ++ (redirect.text op ++ back) =
      (front ++ redirect.lead) ++ (op.text ++ ((redirect.gap ++ redirect.operand) ++ back)) := by
    simp [Redirect.text]
  have hlead (other : RedirOp) : other.byte ∉ redirect.lead :=
    redirect.lead_white.not_mem other.isspace_byte
  have hbody (other : RedirOp) : other.byte ∉ redirect.gap ++ redirect.operand :=
    redirect.body_plain.not_mem_byte other
  rw [hshape]
  apply operand_of_only hop
  · exact List.not_mem_append hfront (hlead op)
  · exact List.not_mem_append (hbody op) hback
  · intro hinput
    obtain ⟨hbefore, hbehind⟩ := hgreater hinput
    exact ⟨List.not_mem_append hbefore (hlead .output),
      List.not_mem_append (hbody .output) hbehind⟩

/-- A command with redirections of different kinds in any order. -/
structure RedirectedCommand where
  command : CString
  command_plain : NoOperator command
  redirects : List (RedirOp × Redirect)
  distinct : (redirects.map (·.1.byte)).Nodup

namespace RedirectedCommand

variable (line : RedirectedCommand)

/-- Every order of the redirections gives the same command and record. -/
def OrderInsensitive : Prop :=
  ∀ others, others.Perm line.redirects →
    parseRedirections (line.command ++ redirectsText others) =
      parseRedirections (line.command ++ redirectsText line.redirects)

/-- Of two redirections, one is searched first. -/
theorem exists_searched_first (hmany : 1 < line.redirects.length) :
    ∃ redirect ∈ line.redirects, redirect.1 ≠ .pipe ∧
      (redirect.1 = .input → ∀ other ∈ line.redirects, other.1.byte ≠ greater) := by
  by_cases houtput : ∃ redirect ∈ line.redirects, redirect.1.byte = greater
  · obtain ⟨redirect, hin, hbyte⟩ := houtput
    refine ⟨redirect, hin, fun hpipe => ?_, fun hinput => ?_⟩
    · exact absurd (hpipe ▸ hbyte) (by decide)
    · exact absurd (hinput ▸ hbyte) (by decide)
  · by_cases hinput : ∃ redirect ∈ line.redirects, redirect.1 = .input
    · obtain ⟨redirect, hin, hinput⟩ := hinput
      refine ⟨redirect, hin, by simp [hinput], fun _ other hother hbyte => ?_⟩
      exact houtput ⟨other, hother, hbyte⟩
    · -- only pipes are left, and there is one at most
      have hpipes : ∀ byte ∈ line.redirects.map (·.1.byte), byte = bar := by
        intro byte hbyte
        obtain ⟨⟨op, redirect⟩, hin, rfl⟩ := List.mem_map.mp hbyte
        cases op with
        | append => exact absurd ⟨_, hin, rfl⟩ houtput
        | output => exact absurd ⟨_, hin, rfl⟩ houtput
        | input => exact absurd ⟨_, hin, rfl⟩ hinput
        | pipe => rfl
      have hdistinct := line.distinct
      rw [List.eq_replicate_of_mem hpipes, List.nodup_replicate, List.length_map] at hdistinct
      omega

/-- An operand that takes other redirections along is not the one written. -/
theorem trimWhitespace_body_append_ne (redirect : Redirect)
    {others : List (RedirOp × Redirect)} (hothers : others ≠ []) :
    trimWhitespace ((redirect.gap ++ redirect.operand) ++ redirectsText others) ≠
      trimWhitespace ((redirect.gap ++ redirect.operand) ++ []) := by
  intro htrim
  have hplain : NoOperator ((redirect.gap ++ redirect.operand) ++ redirectsText others) := by
    rw [← noOperator_trimWhitespace_iff, htrim, noOperator_trimWhitespace_iff, List.append_nil]
    exact redirect.body_plain
  obtain ⟨other, hother⟩ := List.exists_mem_of_ne_nil others hothers
  exact (noOperator_append.mp hplain).2.not_mem_byte other.1 (byte_mem_redirectsText hother)

/-- The redirection that is searched first, in front of the others and behind them. -/
theorem not_orderInsensitive_of_many (hmany : 1 < line.redirects.length) :
    ¬ line.OrderInsensitive := by
  intro hsame
  obtain ⟨⟨op, redirect⟩, hin, hpipe, hinput⟩ := line.exists_searched_first hmany
  obtain ⟨front, back, hsplit⟩ := List.append_of_mem hin
  have hperm : line.redirects.Perm ((op, redirect) :: (front ++ back)) := by
    rw [hsplit]
    exact List.perm_middle
  have hdistinct := (hperm.map (·.1.byte)).nodup line.distinct
  rw [List.map_cons, List.nodup_cons] at hdistinct
  have hrest : op.byte ∉ redirectsText (front ++ back) :=
    byte_not_mem_redirectsText fun other hother hbyte =>
      hdistinct.1 (List.mem_map.mpr ⟨other, hother, hbyte⟩)
  have hgreater : op = .input → greater ∉ redirectsText (front ++ back) := by
    intro heq
    change RedirOp.output.byte ∉ _
    apply byte_not_mem_redirectsText
    intro other hother
    exact hinput heq other (hperm.mem_iff.mpr (List.mem_cons_of_mem _ hother))
  have hcommand := line.command_plain.not_mem_byte
  -- in front of the others, the redirection takes them for its operand
  have hfirst := operand_redirect hpipe redirect (hcommand op) hrest
    fun heq => ⟨hcommand .output, hgreater heq⟩
  have hlast := operand_redirect hpipe redirect (List.not_mem_append (hcommand op) hrest)
    List.not_mem_nil fun heq =>
      ⟨List.not_mem_append (hcommand .output) (hgreater heq), List.not_mem_nil⟩
  have hshape : line.command ++ redirectsText ((front ++ back) ++ [(op, redirect)]) =
      (line.command ++ redirectsText (front ++ back)) ++ (redirect.text op ++ []) := by
    simp [redirectsText]
  have hequal := (hsame _ hperm.symm).trans
    (hsame ((front ++ back) ++ [(op, redirect)])
      ((List.perm_append_singleton _ _).trans hperm.symm)).symm
  have hoperands := congrArg (fun parsed => parsed.2.operand op) hequal
  rw [hshape] at hoperands
  apply trimWhitespace_body_append_ne redirect _
    (Option.some.inj (hfirst.symm.trans (hoperands.trans hlast)))
  intro hnil
  have hlength := hperm.length_eq
  rw [hnil, List.length_singleton] at hlength
  omega

/-- **The order of redirections matters.** It does not only for a command with at most one
redirection. -/
theorem orderInsensitive_iff : line.OrderInsensitive ↔ line.redirects.length ≤ 1 := by
  constructor
  · intro hsame
    by_contra hmany
    exact line.not_orderInsensitive_of_many (not_le.mp hmany) hsame
  · intro hfew others hperm
    rcases Nat.le_one_iff_eq_zero_or_eq_one.mp hfew with hzero | hone
    · rw [List.length_eq_zero_iff.mp hzero] at hperm ⊢
      rw [hperm.eq_nil]
    · obtain ⟨redirect, hsingle⟩ := List.length_eq_one_iff.mp hone
      rw [hsingle] at hperm ⊢
      rw [hperm.eq_singleton]

/-- `c > o < i`. -/
def outputBeforeInput : RedirectedCommand where
  command := cstr "c"
  command_plain := by decide +kernel
  redirects :=
    [(.output, ⟨cstr " ", cstr " ", cstr "o", by decide +kernel, by decide +kernel,
      by decide +kernel⟩),
     (.input, ⟨cstr " ", cstr " ", cstr "i", by decide +kernel, by decide +kernel,
      by decide +kernel⟩)]
  distinct := by decide +kernel

/-- The output file of `c > o < i` is `o < i`, and there is no input file. -/
theorem not_orderInsensitive_outputBeforeInput : ¬ outputBeforeInput.OrderInsensitive := by
  intro hsame
  have hswapped := hsame outputBeforeInput.redirects.reverse (List.reverse_perm _)
  revert hswapped
  decide +kernel

end RedirectedCommand

end BasC
