/-
# The pieces of a command

The three searches of `cli_parser_parse_redirections` divide a command into four pieces: the
command, and what begins with the pipe, the input and the output operator. They find the
first operator of each kind where it has blanks on both sides. They also find it, however
the command is spelled, where it is the only one of its kind that is left.
-/

import BasC.Cli.RedirectionSpelling

namespace BasC

open CChar Lib

/-- Up to the first operator of a kind. -/
def upTo (op : RedirOp) (parts : List (RedirOp × CString)) : List (RedirOp × CString) :=
  parts.takeWhile fun part => part.1 ≠ op

/-- From the first operator of a kind on. -/
def startingAt (op : RedirOp) (parts : List (RedirOp × CString)) : List (RedirOp × CString) :=
  parts.dropWhile fun part => part.1 ≠ op

/-- The output operator that is searched: a `>>` wherever there is one. -/
def outputOp (parts : List (RedirOp × CString)) : RedirOp :=
  if .append ∈ parts.map Prod.fst then .append else .output

/-- A text that blanks do not change but at its ends: it has no operator, or one between
white space. -/
def Quiet (text : CString) : List (RedirOp × CString) → Prop
  | [] => True
  | [part] => White text ∧ White part.2
  | _ => False

/-- An operator behind another one that may be found in its place. -/
def Mistakable (first : RedirOp × CString) (next : RedirOp) : Prop :=
  next = first.1 ∨ (first.1 = .append ∧ first.2 = [] ∧ next = .output)

/-- Nothing, or an operator with a quiet operand in which it is not found again. -/
def Settled : List (RedirOp × CString) → Prop
  | [] => True
  | first :: rest => Quiet first.2 rest ∧ ∀ next ∈ rest, ¬ Mistakable first next.1

/-- The pieces that the searches find where all operators have blanks around them are quiet
and settled. -/
def Steady (skeleton : CString × List (RedirOp × CString)) : Prop :=
  let kind := outputOp skeleton.2
  let front := upTo kind skeleton.2
  let middle := upTo .input front
  Quiet skeleton.1 (upTo .pipe middle) ∧ Settled (startingAt .pipe middle) ∧
    Settled (startingAt .input front) ∧ Settled (startingAt kind skeleton.2)

/-- The first operator of a kind begins the second list. -/
structure FirstAt (op : RedirOp) (front back : List (RedirOp × CString)) : Prop where
  not_front : ∀ part ∈ front, part.1 ≠ op
  head_back : ∀ part ∈ back.head?, part.1 = op

theorem firstAt_upTo (op : RedirOp) (parts : List (RedirOp × CString)) :
    FirstAt op (upTo op parts) (startingAt op parts) where
  not_front part hpart := by simpa using List.mem_takeWhile_imp hpart
  head_back part hpart := by
    have hhead := List.head?_dropWhile_not (fun part => decide (part.1 ≠ op)) parts
    rw [startingAt] at hpart
    rw [hpart] at hhead
    simpa using hhead

theorem upTo_append_startingAt (op : RedirOp) (parts : List (RedirOp × CString)) :
    upTo op parts ++ startingAt op parts = parts :=
  List.takeWhile_append_dropWhile

/-- A command, a pipe, an input and an output piece, each up to the operator that begins
the next one. -/
structure Divided (command : CString) (kind : RedirOp)
    (commands pipes inputs outputs : List (RedirOp × CString)) : Prop where
  fit : TextsFit command (((commands ++ pipes) ++ inputs) ++ outputs)
  kind_eq : kind = .append ∧ outputs ≠ [] ∨
    kind = .output ∧ ∀ part ∈ ((commands ++ pipes) ++ inputs) ++ outputs, part.1 ≠ .append
  at_output : FirstAt kind ((commands ++ pipes) ++ inputs) outputs
  at_input : FirstAt .input (commands ++ pipes) inputs
  at_pipe : FirstAt .pipe commands pipes

/-- The pieces of a command, and what steady says about them. -/
theorem exists_divided {command : CString} {parts : List (RedirOp × CString)}
    (hfit : TextsFit command parts) :
    ∃ commands pipes inputs outputs,
      parts = ((commands ++ pipes) ++ inputs) ++ outputs ∧
      Divided command (outputOp parts) commands pipes inputs outputs ∧
      (Steady (command, parts) ↔ Quiet command commands ∧ Settled pipes ∧ Settled inputs ∧
        Settled outputs) := by
  have hsplit : parts = ((upTo .pipe (upTo .input (upTo (outputOp parts) parts)) ++
      startingAt .pipe (upTo .input (upTo (outputOp parts) parts))) ++
      startingAt .input (upTo (outputOp parts) parts)) ++ startingAt (outputOp parts) parts := by
    simp only [upTo_append_startingAt]
  refine ⟨_, _, _, _, hsplit, ⟨?_, ?_, ?_, ?_, ?_⟩, Iff.rfl⟩
  · simpa only [← hsplit] using hfit
  · rw [← hsplit]
    by_cases happend : RedirOp.append ∈ parts.map Prod.fst
    · left
      have hkind : outputOp parts = .append := if_pos happend
      refine ⟨hkind, fun hnone => ?_⟩
      obtain ⟨part, hpart, hop⟩ := List.mem_map.mp happend
      have hkept := List.dropWhile_eq_nil_iff.mp hnone part hpart
      simp [hkind, hop] at hkept
    · right
      refine ⟨if_neg happend, fun part hpart hop => happend ?_⟩
      exact List.mem_map.mpr ⟨part, hpart, hop⟩
  · simpa only [upTo_append_startingAt] using firstAt_upTo (outputOp parts) parts
  · simpa only [upTo_append_startingAt] using firstAt_upTo .input (upTo (outputOp parts) parts)
  · exact firstAt_upTo .pipe _

/-- The operand of the operator at the front. -/
def operandOf : List SpacedOp → Option CString
  | [] => none
  | first :: rest => some (trimWhitespace (spell first.text rest))

/-- The operator at the front has a blank on both sides. -/
def LooseHead (ops : List SpacedOp) : Prop :=
  ∀ first ∈ ops.head?, 1 ≤ first.before ∧ 1 ≤ first.behind

/-- The search with blanks on both sides, with more of them around. -/
theorem Searches.take_loose {cut : CString → Option (CString × CString)} {op : CString}
    (hcut : Searches cut op) (hop : blank ∉ op) {front : CString} {before : ℕ}
    (hfirst : ¬ op <:+: front ++ blanks before) (behind : ℕ) (rest : CString) (count : ℕ) :
    takeOperand cut (front ++ (blanks (before + 1) ++ (op ++ (blanks (behind + 1) ++ rest))) ++
        blanks count) = (front ++ blanks before, some (trimWhitespace rest)) := by
  have hshape : front ++ (blanks (before + 1) ++ (op ++ (blanks (behind + 1) ++ rest))) ++
      blanks count = (front ++ blanks before) ++
        blank :: (op ++ blank :: ((blanks behind ++ rest) ++ blanks count)) := by
    rw [blanks, List.replicate_succ']
    simp [blanks, List.replicate_succ]
  have hoperand : trimWhitespace ((blanks behind ++ rest) ++ blanks count) =
      trimWhitespace rest := by
    rw [trimWhitespace_append_white _ (white_blanks count),
      trimWhitespace_white_append (white_blanks behind)]
  have hspaced := cutSpaced_of_first hop hfirst ((blanks behind ++ rest) ++ blanks count)
  rw [hshape, takeOperand, hcut.of_spaced hspaced, hoperand]

theorem RedirOp.text_eq {op : RedirOp} (hop : op ≠ .append) : op.text = [op.byte] := by
  cases op <;> first | rfl | exact absurd rfl hop

/-- Only `>` and `>>` have the same byte. -/
theorem RedirOp.byte_ne {op other : RedirOp} (hop : op ≠ .append)
    (hkind : op = .output → other ≠ .append) (hother : other ≠ op) : other.byte ≠ op.byte := by
  revert hop hkind hother
  cases op <;> cases other <;> decide

section Search

variable {command text : CString} {front back : List SpacedOp}

theorem FirstAt.byte_not_mem {op : RedirOp} {others : List (RedirOp × CString)}
    (hop : op ≠ .append)
    (hkind : op = .output → ∀ spaced ∈ front, spaced.op ≠ .append)
    (hfit : TextsFit command (front.map SpacedOp.part))
    (hfirst : FirstAt op (front.map SpacedOp.part) others) : op.byte ∉ spell command front := by
  apply byte_not_mem_spell hfit
  intro spaced hspaced
  apply RedirOp.byte_ne hop fun houtput => hkind houtput spaced hspaced
  exact hfirst.not_front spaced.part (List.mem_map_of_mem hspaced)

/-- The only operator of its kind is found. -/
theorem takeByte_settled (op : RedirOp) (hop : op ≠ .append)
    (hkind : op = .output → ∀ spaced ∈ front ++ back, spaced.op ≠ .append)
    (hfit : TextsFit command ((front ++ back).map SpacedOp.part))
    (hfirst : FirstAt op (front.map SpacedOp.part) (back.map SpacedOp.part))
    (hsettled : Settled (back.map SpacedOp.part))
    (htext : dropTrailingSpaces text = dropTrailingSpaces (spell command (front ++ back))) :
    ∃ left, takeOperand (cutByte op.byte) text = (left, operandOf back) ∧
      dropTrailingSpaces left = dropTrailingSpaces (spell command front) := by
  rw [List.map_append] at hfit
  have hfront := hfirst.byte_not_mem hop
    (fun houtput spaced hspaced => hkind houtput spaced (List.mem_append_left _ hspaced))
    hfit.of_append
  cases back with
  | nil =>
      rw [List.append_nil] at htext
      exact ⟨text, takeByte_of_not_mem op.isspace_byte hfront htext, htext⟩
  | cons first rest =>
      have hfirstOp : first.op = op := hfirst.head_back first.part rfl
      have hbefore : op.byte ∉ spell command front ++ blanks first.before :=
        List.not_mem_append hfront ((white_blanks _).not_mem op.isspace_byte)
      have hrest : op.byte ∉ spell first.text rest := by
        apply byte_not_mem_spell hfit.of_append_cons.1
        intro spaced hspaced
        apply RedirOp.byte_ne hop fun houtput => hkind houtput spaced (by simp [hspaced])
        intro hsame
        apply hsettled.2 spaced.part (List.mem_map_of_mem hspaced)
        exact .inl (hsame.trans hfirstOp.symm)
      have hafter : op.byte ∉ blanks first.behind ++ spell first.text rest :=
        List.not_mem_append ((white_blanks _).not_mem op.isspace_byte) hrest
      rw [spell_append_cons, hfirstOp, RedirOp.text_eq hop, ← List.append_assoc] at htext
      obtain ⟨left, htake, hleft⟩ := takeByte_of_only op.isspace_byte hbefore hafter htext
      rw [trimWhitespace_white_append (white_blanks _)] at htake
      rw [dropTrailingSpaces_append_white _ (white_blanks _)] at hleft
      exact ⟨left, htake, hleft⟩

/-- The first operator of its kind is found if it has blanks around it. -/
theorem takeByte_loose (op : RedirOp) (hop : op ≠ .append)
    (hkind : op = .output → ∀ spaced ∈ front, spaced.op ≠ .append)
    (hfit : TextsFit command ((front ++ back).map SpacedOp.part))
    (hfirst : FirstAt op (front.map SpacedOp.part) (back.map SpacedOp.part))
    (hloose : LooseHead back) (count : ℕ) :
    ∃ left, takeOperand (cutByte op.byte) (spell command (front ++ back) ++ blanks count) =
      (spell command front ++ blanks left, operandOf back) := by
  rw [List.map_append] at hfit
  have hfront := hfirst.byte_not_mem hop hkind hfit.of_append
  have hblanks (count : ℕ) : op.byte ∉ spell command front ++ blanks count :=
    List.not_mem_append hfront ((white_blanks _).not_mem op.isspace_byte)
  cases back with
  | nil =>
      rw [List.append_nil]
      exact ⟨count, takeByte_of_not_mem op.isspace_byte (hblanks count) rfl⟩
  | cons first rest =>
      have hfirstOp : first.op = op := hfirst.head_back first.part rfl
      obtain ⟨hbefore, hbehind⟩ := hloose first rfl
      obtain ⟨before, hbefore⟩ := Nat.exists_eq_add_of_le' hbefore
      obtain ⟨behind, hbehind⟩ := Nat.exists_eq_add_of_le' hbehind
      refine ⟨before, ?_⟩
      rw [spell_append_cons, hfirstOp, RedirOp.text_eq hop, hbefore, hbehind]
      apply (searches_byte op.byte).take_loose
      · rw [List.mem_singleton]
        exact fun hblank => by simpa [← hblank, isspace_blank] using op.isspace_byte
      · rw [List.singleton_infix_iff]
        exact hblanks before

end Search

theorem RedirOp.byte_ne_greater {op : RedirOp} (happend : op ≠ .append) (houtput : op ≠ .output) :
    op.byte ≠ greater := by
  revert happend houtput
  cases op <;> decide

/-- A command up to its first output operator and from there on. A `>` is searched where there
is no `>>`. -/
structure OutputAt (command : CString) (kind : RedirOp) (front back : List SpacedOp) : Prop where
  fit : TextsFit command ((front ++ back).map SpacedOp.part)
  apart : (front ++ back).IsChain KeptApart
  kind_eq : kind = .append ∧ back ≠ [] ∨
    kind = .output ∧ ∀ spaced ∈ front ++ back, spaced.op ≠ .append
  first : FirstAt kind (front.map SpacedOp.part) (back.map SpacedOp.part)

namespace OutputAt

variable {command : CString} {front back : List SpacedOp} {kind : RedirOp}

theorem front_ne (hat : OutputAt command kind front back) : ∀ spaced ∈ front, spaced.op ≠ kind :=
  fun spaced hspaced => hat.first.not_front spaced.part (List.mem_map_of_mem hspaced)

/-- The only `>>` is next to no other `>`. -/
theorem onlyAt_double {first : SpacedOp} {rest : List SpacedOp}
    (hat : OutputAt command .append front (first :: rest))
    (hrest : ∀ spaced ∈ rest, ¬ Mistakable first.part spaced.op) :
    OnlyAt [greater, greater] (spell command front ++ blanks first.before)
      (blanks first.behind ++ spell first.text rest) := by
  have hop : first.op = .append := hat.first.head_back first.part rfl
  have hfit := hat.fit
  rw [List.map_append] at hfit
  have hnone : ∀ spaced ∈ rest, spaced.op ≠ .append := fun spaced hspaced hsame =>
    hrest spaced hspaced (.inl (hsame.trans hop.symm))
  apply onlyAt_append
  · apply no_double_blanks
    exact no_double_spell hfit.of_append hat.apart.left_of_append hat.front_ne
  · apply getLast?_spell_ne_greater hfit.of_append
    intro last hlast hempty hnothing
    apply RedirOp.byte_ne_greater (hat.front_ne last (List.mem_of_getLast? hlast))
    intro houtput
    have hkept := (List.isChain_append.mp hat.apart).2.2 last hlast first rfl
    exact hkept houtput hempty hnothing (by rw [hop]; rfl)
  · apply no_double_append ((white_blanks _).not_mem (by decide))
    exact no_double_spell hfit.of_append_cons.1 hat.apart.right_of_append.tail hnone
  · apply head?_spell_ne_greater hfit.of_append_cons.1
    intro hempty second hsecond _
    have hin := List.mem_of_head? hsecond
    apply RedirOp.byte_ne_greater (hnone second hin)
    exact fun houtput => hrest second hin (.inr ⟨hop, hempty, houtput⟩)

/-- The only output operator is found. -/
theorem take_settled (hat : OutputAt command kind front back)
    (hsettled : Settled (back.map SpacedOp.part)) :
    ∃ left, takeOutput (spell command (front ++ back)) =
        (left, operandOf back, decide (kind = .append)) ∧
      dropTrailingSpaces left = dropTrailingSpaces (spell command front) := by
  rcases hat.kind_eq with ⟨rfl, hne⟩ | ⟨rfl, hnone⟩
  · obtain ⟨first, rest, rfl⟩ := List.exists_cons_of_ne_nil hne
    have hop : first.op = .append := hat.first.head_back first.part rfl
    have honly := hat.onlyAt_double fun spaced hspaced =>
      hsettled.2 spaced.part (List.mem_map_of_mem hspaced)
    obtain ⟨left, htake, hleft⟩ := searches_append.take_of_only honly
    rw [trimWhitespace_white_append (white_blanks _)] at htake
    rw [dropTrailingSpaces_append_white _ (white_blanks _)] at hleft
    refine ⟨left, ?_, hleft⟩
    rw [spell_append_cons, hop, RedirOp.text, ← List.append_assoc, takeOutput_eq_append, htake]
    · rfl
    · exact List.infix_append' _ _ _
  · obtain ⟨left, htake, hleft⟩ :=
      takeByte_settled .output (by decide) (fun _ => hnone) hat.fit hat.first hsettled rfl
    refine ⟨left, ?_, hleft⟩
    change takeOperand (cutByte greater) _ = _ at htake
    rw [takeOutput_eq_byte (no_double_spell hat.fit hat.apart hnone), htake]
    rfl

/-- The first output operator is found if it has blanks around it. -/
theorem take_loose (hat : OutputAt command kind front back) (hloose : LooseHead back) :
    ∃ left, takeOutput (spell command (front ++ back)) =
      (spell command front ++ blanks left, operandOf back, decide (kind = .append)) := by
  rcases hat.kind_eq with ⟨rfl, hne⟩ | ⟨rfl, hnone⟩
  · obtain ⟨first, rest, rfl⟩ := List.exists_cons_of_ne_nil hne
    have hop : first.op = .append := hat.first.head_back first.part rfl
    obtain ⟨hbefore, hbehind⟩ := hloose first rfl
    obtain ⟨before, hbefore⟩ := Nat.exists_eq_add_of_le' hbefore
    obtain ⟨behind, hbehind⟩ := Nat.exists_eq_add_of_le' hbehind
    refine ⟨before, ?_⟩
    have hfit := hat.fit
    rw [List.map_append] at hfit
    have hclear := no_double_spell hfit.of_append hat.apart.left_of_append hat.front_ne
    have htake := searches_append.take_loose (by decide) (no_double_blanks hclear before) behind
      (spell first.text rest) 0
    rw [blanks_zero, List.append_nil] at htake
    rw [spell_append_cons, hop, hbefore, hbehind, RedirOp.text, takeOutput_eq_append, htake]
    · rfl
    · rw [← List.append_assoc]
      exact List.infix_append' _ _ _
  · obtain ⟨left, htake⟩ := takeByte_loose .output (by decide)
      (fun _ spaced hspaced => hnone spaced (List.mem_append_left _ hspaced)) hat.fit hat.first
      hloose 0
    refine ⟨left, ?_⟩
    rw [blanks_zero, List.append_nil] at htake
    change takeOperand (cutByte greater) _ = _ at htake
    rw [takeOutput_eq_byte (no_double_spell hat.fit hat.apart hnone), htake]
    rfl

end OutputAt

/-! ## The three searches -/

/-- The trimmed command and the record. -/
def found (text : CString) : CString × Redirection :=
  (trimWhitespace (parseRedirections text).1, (parseRedirections text).2)

/-- The record that the pieces of a command give. -/
def pieceRecord (kind : RedirOp) (pipes inputs outputs : List SpacedOp) : Redirection where
  outputFile := operandOf outputs
  inputFile := operandOf inputs
  pipeCommand := operandOf pipes
  appendMode := decide (kind = .append)

/-- The pieces of a command as they are written. -/
structure Spelling (command : CString) (kind : RedirOp)
    (commands pipes inputs outputs : List SpacedOp) : Prop where
  divided : Divided command kind (commands.map SpacedOp.part) (pipes.map SpacedOp.part)
    (inputs.map SpacedOp.part) (outputs.map SpacedOp.part)
  apart : (((commands ++ pipes) ++ inputs) ++ outputs).IsChain KeptApart

namespace Spelling

variable {command : CString} {kind : RedirOp} {commands pipes inputs outputs : List SpacedOp}
  (hspelling : Spelling command kind commands pipes inputs outputs)
include hspelling

theorem outputAt : OutputAt command kind ((commands ++ pipes) ++ inputs) outputs where
  fit := by simpa only [List.map_append] using hspelling.divided.fit
  apart := hspelling.apart
  kind_eq := by
    rcases hspelling.divided.kind_eq with ⟨happend, hne⟩ | ⟨houtput, hnone⟩
    · exact .inl ⟨happend, fun hnil => hne (by rw [hnil, List.map_nil])⟩
    · refine .inr ⟨houtput, fun spaced hspaced => hnone spaced.part ?_⟩
      rw [← List.map_append, ← List.map_append, ← List.map_append]
      exact List.mem_map_of_mem hspaced
  first := by simpa only [List.map_append] using hspelling.divided.at_output

theorem fit_inputs : TextsFit command (((commands ++ pipes) ++ inputs).map SpacedOp.part) := by
  have hfit := hspelling.outputAt.fit
  rw [List.map_append] at hfit
  exact hfit.of_append

theorem fit_pipes : TextsFit command ((commands ++ pipes).map SpacedOp.part) := by
  have hfit := hspelling.fit_inputs
  rw [List.map_append] at hfit
  exact hfit.of_append

theorem at_inputs :
    FirstAt .input ((commands ++ pipes).map SpacedOp.part) (inputs.map SpacedOp.part) := by
  simpa only [List.map_append] using hspelling.divided.at_input

/-- Where each search has one operator to find, the pieces are found however they are
spaced. -/
theorem found_settled (hpipes : Settled (pipes.map SpacedOp.part))
    (hinputs : Settled (inputs.map SpacedOp.part))
    (houtputs : Settled (outputs.map SpacedOp.part)) :
    found (spell command (((commands ++ pipes) ++ inputs) ++ outputs)) =
      (trimWhitespace (spell command commands), pieceRecord kind pipes inputs outputs) := by
  obtain ⟨left, houtput, hleft⟩ := hspelling.outputAt.take_settled houtputs
  obtain ⟨rest, hinput, hrest⟩ := takeByte_settled .input (by decide) (by simp)
    hspelling.fit_inputs hspelling.at_inputs hinputs hleft
  obtain ⟨last, hpipe, hlast⟩ := takeByte_settled .pipe (by decide) (by simp)
    hspelling.fit_pipes hspelling.divided.at_pipe hpipes hrest
  change takeOperand (cutByte less) _ = _ at hinput
  change takeOperand (cutByte bar) _ = _ at hpipe
  have hcommand : trimWhitespace (dropTrailingSpaces last) =
      trimWhitespace (spell command commands) :=
    trimWhitespace_congr ((dropTrailingSpaces_idempotent last).trans hlast)
  simp only [found, parseRedirections, houtput, cutInput_eq, hinput, cutPipe_eq, hpipe, hcommand]
  rfl

/-- With blanks around the first operators, the pieces are found whatever is in them. -/
theorem found_loose (hpipes : LooseHead pipes) (hinputs : LooseHead inputs)
    (houtputs : LooseHead outputs) :
    found (spell command (((commands ++ pipes) ++ inputs) ++ outputs)) =
      (trimWhitespace (spell command commands), pieceRecord kind pipes inputs outputs) := by
  obtain ⟨left, houtput⟩ := hspelling.outputAt.take_loose houtputs
  obtain ⟨rest, hinput⟩ := takeByte_loose .input (by decide) (by simp)
    hspelling.fit_inputs hspelling.at_inputs hinputs left
  obtain ⟨last, hpipe⟩ := takeByte_loose .pipe (by decide) (by simp)
    hspelling.fit_pipes hspelling.divided.at_pipe hpipes rest
  change takeOperand (cutByte less) _ = _ at hinput
  change takeOperand (cutByte bar) _ = _ at hpipe
  have hcommand : trimWhitespace (dropTrailingSpaces (spell command commands ++ blanks last)) =
      trimWhitespace (spell command commands) := by
    apply trimWhitespace_congr
    rw [dropTrailingSpaces_idempotent, dropTrailingSpaces_append_white _ (white_blanks last)]
  simp only [found, parseRedirections, houtput, cutInput_eq, hinput, cutPipe_eq, hpipe, hcommand]
  rfl

/-- What is left to the search for the input. -/
theorem inputFile_eq (houtputs : LooseHead outputs) :
    ∃ count, (found (spell command (((commands ++ pipes) ++ inputs) ++ outputs))).2.inputFile =
      (takeOperand (cutByte less)
        (spell command ((commands ++ pipes) ++ inputs) ++ blanks count)).2 := by
  obtain ⟨left, houtput⟩ := hspelling.outputAt.take_loose houtputs
  refine ⟨left, ?_⟩
  rw [found, parseRedirections, houtput, cutInput_eq]

/-- What is left to the search for the pipe. -/
theorem pipeCommand_eq (hinputs : LooseHead inputs) (houtputs : LooseHead outputs) :
    ∃ count, (found (spell command (((commands ++ pipes) ++ inputs) ++ outputs))).2.pipeCommand =
      (takeOperand (cutByte bar) (spell command (commands ++ pipes) ++ blanks count)).2 := by
  obtain ⟨left, houtput⟩ := hspelling.outputAt.take_loose houtputs
  obtain ⟨rest, hinput⟩ := takeByte_loose .input (by decide) (by simp)
    hspelling.fit_inputs hspelling.at_inputs hinputs left
  change takeOperand (cutByte less) _ = _ at hinput
  refine ⟨rest, ?_⟩
  simp only [found, parseRedirections, houtput, cutInput_eq, hinput, cutPipe_eq]

end Spelling

/-- The operators of a command fall into the pieces of its parts. -/
theorem exists_spelling {command : CString} {kind : RedirOp} {ops : List SpacedOp}
    {commands pipes inputs outputs : List (RedirOp × CString)}
    (hdivided : Divided command kind commands pipes inputs outputs)
    (hparts : ops.map SpacedOp.part = ((commands ++ pipes) ++ inputs) ++ outputs)
    (hapart : ops.IsChain KeptApart) :
    ∃ cs ps is os, ops = ((cs ++ ps) ++ is) ++ os ∧
      cs.map SpacedOp.part = commands ∧ ps.map SpacedOp.part = pipes ∧
      is.map SpacedOp.part = inputs ∧ os.map SpacedOp.part = outputs ∧
      Spelling command kind cs ps is os := by
  obtain ⟨front, os, rfl, hfront, rfl⟩ := List.map_eq_append_iff.mp hparts
  obtain ⟨middle, is, rfl, hmiddle, rfl⟩ := List.map_eq_append_iff.mp hfront
  obtain ⟨cs, ps, rfl, rfl, rfl⟩ := List.map_eq_append_iff.mp hmiddle
  exact ⟨cs, ps, is, os, rfl, rfl, rfl, rfl, rfl, hdivided, hapart⟩

theorem RedirOp.trimWhitespace_text (op : RedirOp) : trimWhitespace op.text = op.text := by
  cases op <;> decide

/-- Between white space, only the operator is left. -/
theorem trimWhitespace_spell_singleton {text : CString} {spaced : SpacedOp} (htext : White text)
    (hrest : White spaced.text) : trimWhitespace (spell text [spaced]) = spaced.op.text := by
  rw [spell, spell, trimWhitespace_white_append htext,
    trimWhitespace_white_append (white_blanks _), trimWhitespace_append_white,
    spaced.op.trimWhitespace_text]
  exact white_append.mpr ⟨white_blanks _, hrest⟩

/-- A quiet text reads the same however it is spaced. -/
theorem trimWhitespace_spell_of_quiet {text : CString} {ops others : List SpacedOp}
    (hsame : ops.map SpacedOp.part = others.map SpacedOp.part)
    (hquiet : Quiet text (ops.map SpacedOp.part)) :
    trimWhitespace (spell text ops) = trimWhitespace (spell text others) := by
  match ops, others with
  | [], [] => rfl
  | [first], [second] =>
      obtain ⟨hop, hrest⟩ : first.op = second.op ∧ first.text = second.text := by
        simpa [SpacedOp.part] using hsame
      obtain ⟨htext, hwhite⟩ := hquiet
      rw [trimWhitespace_spell_singleton htext hwhite, hop]
      exact (trimWhitespace_spell_singleton htext (hrest ▸ hwhite)).symm
  | _ :: _ :: _, _ => exact absurd hquiet (by simp [Quiet])
  | [], _ :: _ => simp at hsame
  | [_], [] => simp at hsame
  | [_], _ :: _ :: _ => simp at hsame

theorem operandOf_of_settled {ops others : List SpacedOp}
    (hsame : ops.map SpacedOp.part = others.map SpacedOp.part)
    (hsettled : Settled (ops.map SpacedOp.part)) : operandOf ops = operandOf others := by
  match ops, others with
  | [], [] => rfl
  | [], _ :: _ => simp at hsame
  | _ :: _, [] => simp at hsame
  | first :: rest, second :: later =>
      rw [List.map_cons, List.map_cons, List.cons.injEq] at hsame
      have htext : first.text = second.text := congrArg Prod.snd hsame.1
      have hquiet : Quiet first.text (rest.map SpacedOp.part) := hsettled.1
      rw [operandOf, operandOf, ← htext, trimWhitespace_spell_of_quiet hsame.2 hquiet]

/-- A steady command gives the same with other blanks next to its operators. -/
theorem SpacedCommand.found_eq_of_steady {line other : SpacedCommand}
    (hsteady : Steady line.skeleton) (hskeleton : other.skeleton = line.skeleton) :
    found other.text = found line.text := by
  obtain ⟨hcommand, hparts⟩ := Prod.mk.inj hskeleton
  obtain ⟨commands, pipes, inputs, outputs, hsplit, hdivided, hiff⟩ := exists_divided line.fit
  obtain ⟨hquiet, hpipes, hinputs, houtputs⟩ := hiff.mp hsteady
  obtain ⟨cs, ps, is, os, hline, rfl, rfl, rfl, rfl, hspelling⟩ :=
    exists_spelling hdivided hsplit line.apart
  obtain ⟨cs', ps', is', os', hother, hcs, hps, his, hos, hspelling'⟩ :=
    exists_spelling hdivided (hparts.trans hsplit) other.apart
  have hfound := hspelling.found_settled hpipes hinputs houtputs
  have hfound' := hspelling'.found_settled (hps ▸ hpipes) (his ▸ hinputs) (hos ▸ houtputs)
  rw [text, text, hcommand, hline, hother, hfound, hfound', pieceRecord, pieceRecord,
    trimWhitespace_spell_of_quiet hcs.symm hquiet, operandOf_of_settled hps.symm hpipes,
    operandOf_of_settled his.symm hinputs, operandOf_of_settled hos.symm houtputs]

end BasC
