/-
# Redirections

`cli_parser_parse_redirections` cuts the output, the input and the pipe operand off a
command, in this order. Each operator is searched with blanks around it, then with the
blank behind it, then with the blank in front, and at last bare. The operands point into
the command buffer; nothing behind the NUL that a cut writes is searched again.

The searches read raw bytes. This module determines when the function leaves a command
alone, which it ought to do whenever every operator is quoted or escaped.
-/

import BasC.Cli.ArgsWords

namespace BasC

open CChar Lib

/-- `trim_whitespace`. -/
def trimWhitespace (str : CString) : CString := dropTrailingSpaces (skipSpaces str)

/-- `skip_comments`: the line from its first byte that is no white space, unless that is a
`#`. -/
def skipComments (line : CString) : Option CString :=
  if (skipSpaces line).head? = some hash then none else some (skipSpaces line)

/-- `cli_redirection_t`. -/
structure Redirection where
  outputFile : Option CString
  inputFile : Option CString
  pipeCommand : Option CString
  appendMode : Bool
  deriving DecidableEq

/-- The zero-initialized structure. -/
def Redirection.empty : Redirection := ⟨none, none, none, false⟩

/-- The text before the operator as it is written in `needle`, and the operand behind
it. -/
def cutFirst (needle cmdTrim : CString) : Option (CString × CString) :=
  (strstr needle cmdTrim).map fun cut => (cut.1, trimWhitespace (cut.2.drop needle.length))

/-- The searches for an operator with a blank on both sides, behind it, and in front. -/
def cutSpaced (op cmdTrim : CString) : Option (CString × CString) :=
  (cutFirst (blank :: (op ++ [blank])) cmdTrim).or
    ((cutFirst (op ++ [blank]) cmdTrim).or (cutFirst (blank :: op) cmdTrim))

/-- The search for the last bare operator byte. -/
def cutLast (op : CChar) (cmdTrim : CString) : Option (CString × CString) :=
  (strrchr cmdTrim op).map fun cut => (cut.1, trimWhitespace cut.2.tail)

/-- The search for the last `>`, unless it is the second byte of a `>>`. -/
def cutLastGreater (cmdTrim : CString) : Option (CString × CString) :=
  match strrchr cmdTrim greater with
  | none => none
  | some (before, lastGt) =>
      if before = [] ∨ before.getLast? ≠ some greater then
        some (before, trimWhitespace lastGt.tail)
      else none

/-- The search for `>>`. -/
def cutAppend (cmdTrim : CString) : Option (CString × CString) :=
  (cutSpaced [greater, greater] cmdTrim).or (cutFirst [greater, greater] cmdTrim)

/-- The search for `>`, made when there is no `>>`. -/
def cutOutput (cmdTrim : CString) : Option (CString × CString) :=
  (cutSpaced [greater] cmdTrim).or (cutLastGreater cmdTrim)

/-- The search for `<`. -/
def cutInput (cmdTrim : CString) : Option (CString × CString) :=
  (cutSpaced [less] cmdTrim).or (cutLast less cmdTrim)

/-- The search for `|`. -/
def cutPipe (cmdTrim : CString) : Option (CString × CString) :=
  (cutSpaced [bar] cmdTrim).or (cutLast bar cmdTrim)

/-- The output operand: the command before it, the file, and the append mode. -/
def takeOutput (cmdTrim : CString) : CString × Option CString × Bool :=
  match cutAppend cmdTrim with
  | some (cmd, file) => (cmd, some file, true)
  | none =>
      match cutOutput cmdTrim with
      | some (cmd, file) => (cmd, some file, false)
      | none => (cmdTrim, none, false)

/-- What a search leaves of the command, and the operand it found. -/
def takeOperand (cut : CString → Option (CString × CString)) (cmdTrim : CString) :
    CString × Option CString :=
  match cut cmdTrim with
  | some (cmd, operand) => (cmd, some operand)
  | none => (cmdTrim, none)

/-- `cli_parser_parse_redirections`: what is left in the command buffer, and the
redirection record. Both pointers are given, so it returns 0. -/
def parseRedirections (cmdTrim : CString) : CString × Redirection :=
  let output := takeOutput cmdTrim
  let input := takeOperand cutInput output.1
  let pipe := takeOperand cutPipe input.1
  (dropTrailingSpaces pipe.1, ⟨output.2.1, input.2, pipe.2, output.2.2⟩)

theorem cutFirst_eq_none_iff (needle cmdTrim : CString) :
    cutFirst needle cmdTrim = none ↔ ¬ needle <:+: cmdTrim := by
  rw [cutFirst, Option.map_eq_none_iff]
  exact ⟨strstr_eq_none, strstr_eq_none_of_not_infix⟩

theorem cutLast_eq_none_iff (op : CChar) (cmdTrim : CString) :
    cutLast op cmdTrim = none ↔ op ∉ cmdTrim := by
  rw [cutLast, Option.map_eq_none_iff, strrchr_eq_none_iff]

/-- The spaced forms of an operator contain it. -/
theorem cutSpaced_eq_none {op cmdTrim : CString} (hnot : ¬ op <:+: cmdTrim) :
    cutSpaced op cmdTrim = none := by
  have hboth : op <:+: blank :: (op ++ [blank]) := ⟨[blank], [blank], by simp⟩
  have hbehind : op <:+: op ++ [blank] := ⟨[], [blank], by simp⟩
  have hfront : op <:+: blank :: op := ⟨[blank], [], by simp⟩
  simp only [cutSpaced, Option.or_eq_none_iff, cutFirst_eq_none_iff]
  exact ⟨fun hin => hnot (hboth.trans hin), fun hin => hnot (hbehind.trans hin),
    fun hin => hnot (hfront.trans hin)⟩

theorem cutAppend_eq_none_iff (cmdTrim : CString) :
    cutAppend cmdTrim = none ↔ ¬ [greater, greater] <:+: cmdTrim := by
  rw [cutAppend, Option.or_eq_none_iff, cutFirst_eq_none_iff]
  exact ⟨fun hnone => hnone.2, fun hnot => ⟨cutSpaced_eq_none hnot, hnot⟩⟩

/-- Without a `>>`, the last `>` is always taken. -/
theorem cutLastGreater_eq {cmdTrim : CString} (hnot : ¬ [greater, greater] <:+: cmdTrim) :
    cutLastGreater cmdTrim = cutLast greater cmdTrim := by
  unfold cutLastGreater cutLast
  cases hlast : strrchr cmdTrim greater with
  | none => rfl
  | some cut =>
      obtain ⟨before, lastGt⟩ := cut
      obtain ⟨hsplit, after, rfl, -⟩ := strrchr_eq_some hlast
      have hbefore : before = [] ∨ before.getLast? ≠ some greater := by
        right
        intro hgreater
        obtain ⟨front, rfl⟩ := List.getLast?_eq_some_iff.mp hgreater
        exact hnot ⟨front, after, by simp [hsplit]⟩
      simp [hbefore]

theorem mem_of_occurs {c : CChar} {text : CString} (hoccurs : [c] <:+: text) : c ∈ text :=
  hoccurs.subset (List.mem_singleton_self c)

/-- A search that ends with the bare operator byte finds nothing only without that
byte. -/
theorem cutSpaced_or_cutLast_eq_none_iff (op : CChar) (cmdTrim : CString) :
    (cutSpaced [op] cmdTrim).or (cutLast op cmdTrim) = none ↔ op ∉ cmdTrim := by
  rw [Option.or_eq_none_iff, cutLast_eq_none_iff]
  exact ⟨fun hnone => hnone.2,
    fun hnot => ⟨cutSpaced_eq_none fun hin => hnot (mem_of_occurs hin), hnot⟩⟩

/-- The two output searches together find every `>`. -/
theorem takeOutput_eq_none_iff (cmdTrim : CString) :
    (takeOutput cmdTrim).2.1 = none ↔ greater ∉ cmdTrim := by
  unfold takeOutput
  cases happend : cutAppend cmdTrim with
  | some cut =>
      have hin : [greater, greater] <:+: cmdTrim := by
        by_contra hnot
        simp [(cutAppend_eq_none_iff cmdTrim).mpr hnot] at happend
      simpa using hin.subset List.mem_cons_self
  | none =>
      have hsingle := cutSpaced_or_cutLast_eq_none_iff greater cmdTrim
      rw [← cutLastGreater_eq ((cutAppend_eq_none_iff cmdTrim).mp happend), ← cutOutput] at hsingle
      rw [← hsingle]
      cases cutOutput cmdTrim <;> simp

theorem takeOperand_eq_none_iff (cut : CString → Option (CString × CString))
    (cmdTrim : CString) : (takeOperand cut cmdTrim).2 = none ↔ cut cmdTrim = none := by
  unfold takeOperand
  cases cut cmdTrim <;> simp

theorem takeOperand_fst_of_none {cut : CString → Option (CString × CString)} {cmdTrim : CString}
    (hnone : cut cmdTrim = none) : takeOperand cut cmdTrim = (cmdTrim, none) := by
  simp [takeOperand, hnone]

theorem takeOutput_of_not_mem {cmdTrim : CString} (hnot : greater ∉ cmdTrim) :
    takeOutput cmdTrim = (cmdTrim, none, false) := by
  have hnone := (takeOutput_eq_none_iff cmdTrim).mpr hnot
  revert hnone
  unfold takeOutput
  cases cutAppend cmdTrim with
  | some cut => simp
  | none => cases cutOutput cmdTrim <;> simp

/-- A redirection or pipe character. -/
def isOperator (c : CChar) : Bool := c = greater || c = less || c = bar

/-- No byte of the text is an operator. -/
def NoOperator (text : CString) : Prop := ∀ c ∈ text, isOperator c = false

instance (text : CString) : Decidable (NoOperator text) :=
  inferInstanceAs (Decidable (∀ c ∈ text, isOperator c = false))

theorem noOperator_iff (text : CString) :
    NoOperator text ↔ greater ∉ text ∧ less ∉ text ∧ bar ∉ text := by
  constructor
  · intro hnone
    refine ⟨fun hin => ?_, fun hin => ?_, fun hin => ?_⟩ <;>
      exact absurd (hnone _ hin) (by decide)
  · rintro ⟨hgreater, hless, hbar⟩ c hc
    simp only [isOperator, Bool.or_eq_false_iff, decide_eq_false_iff_not]
    refine ⟨⟨?_, ?_⟩, ?_⟩ <;> rintro rfl <;> contradiction

/-- Without an operator, only trailing white space goes. -/
theorem parseRedirections_of_noOperator {cmdTrim : CString} (hnone : NoOperator cmdTrim) :
    parseRedirections cmdTrim = (dropTrailingSpaces cmdTrim, .empty) := by
  obtain ⟨hgreater, hless, hbar⟩ := (noOperator_iff cmdTrim).mp hnone
  have hinput : cutInput cmdTrim = none := (cutSpaced_or_cutLast_eq_none_iff less _).mpr hless
  have hpipe : cutPipe cmdTrim = none := (cutSpaced_or_cutLast_eq_none_iff bar _).mpr hbar
  simp only [parseRedirections, takeOutput_of_not_mem hgreater]
  rw [takeOperand_fst_of_none hinput, takeOperand_fst_of_none hpipe]
  rfl

/-- An operator anywhere in the command fills the redirection record. -/
theorem redirection_eq_none_iff (cmdTrim : CString) :
    (parseRedirections cmdTrim).2.outputFile = none ∧
        (parseRedirections cmdTrim).2.inputFile = none ∧
        (parseRedirections cmdTrim).2.pipeCommand = none ↔ NoOperator cmdTrim := by
  constructor
  · rintro ⟨houtput, hinput, hpipe⟩
    have hgreater := (takeOutput_eq_none_iff cmdTrim).mp houtput
    simp only [parseRedirections, takeOutput_of_not_mem hgreater] at hinput hpipe
    have hcut := (takeOperand_eq_none_iff cutInput cmdTrim).mp hinput
    rw [takeOperand_fst_of_none hcut] at hpipe
    have hcut' := (takeOperand_eq_none_iff cutPipe cmdTrim).mp hpipe
    exact (noOperator_iff cmdTrim).mpr ⟨hgreater,
      (cutSpaced_or_cutLast_eq_none_iff less cmdTrim).mp hcut,
      (cutSpaced_or_cutLast_eq_none_iff bar cmdTrim).mp hcut'⟩
  · intro hnone
    rw [parseRedirections_of_noOperator hnone]
    exact ⟨rfl, rfl, rfl⟩

/-- Every operator is inside quotes or behind a backslash. -/
def OperatorsProtected (text : CString) : Prop :=
  ∀ letter ∈ argLexicon.marks .start text, isOperator letter.1 = true → letter.2 = true

/-- No operand is set, and the command loses trailing white space only. -/
def LeavesAlone (cmdTrim : CString) : Prop :=
  ((parseRedirections cmdTrim).2.outputFile = none ∧
      (parseRedirections cmdTrim).2.inputFile = none ∧
      (parseRedirections cmdTrim).2.pipeCommand = none) ∧
    ∃ tail, cmdTrim = (parseRedirections cmdTrim).1 ++ tail ∧ ∀ c ∈ tail, isspace c = true

theorem leavesAlone_iff (cmdTrim : CString) : LeavesAlone cmdTrim ↔ NoOperator cmdTrim := by
  rw [LeavesAlone, redirection_eq_none_iff]
  refine ⟨And.left, fun hnone => ⟨hnone, ?_⟩⟩
  rw [parseRedirections_of_noOperator hnone]
  exact exists_dropTrailingSpaces_append cmdTrim

/-- **Quoting does not protect operators.** A command whose operators are all quoted or
escaped is left alone if and only if it has none. -/
theorem operatorsProtected_leavesAlone_iff (cmdTrim : CString) :
    (OperatorsProtected cmdTrim → LeavesAlone cmdTrim) ↔
      (OperatorsProtected cmdTrim → NoOperator cmdTrim) :=
  imp_congr_right fun _ => leavesAlone_iff cmdTrim

/-- The quoted operator of `echo "a>b"` is taken for a redirection. -/
theorem not_leavesAlone_quoted_greater :
    OperatorsProtected (cstr "echo \"a>b\"") ∧ ¬ LeavesAlone (cstr "echo \"a>b\"") := by
  refine ⟨by unfold OperatorsProtected; decide +kernel, ?_⟩
  rw [leavesAlone_iff, noOperator_iff]
  decide +kernel

end BasC
