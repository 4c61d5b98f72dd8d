/-
# Blanks around operators

Blanks next to an operator do not matter where each search has one operator to find. They
matter everywhere else: a piece with an operator in it is trimmed at its ends only, and of
two operators of one kind the searches find the first where it has blanks around it, and
the second where only that one has them.
-/

import BasC.Cli.RedirectionPieces

namespace BasC

open CChar Lib

/-- The same number of blanks everywhere. -/
def pad (count : ℕ) (parts : List (RedirOp × CString)) : List SpacedOp :=
  parts.map fun part => ⟨count, part.1, count, part.2⟩

theorem map_part_pad (count : ℕ) (parts : List (RedirOp × CString)) :
    (pad count parts).map SpacedOp.part = parts := by
  rw [pad, List.map_map]
  exact List.map_id parts

theorem looseHead_pad (count : ℕ) (parts : List (RedirOp × CString)) :
    LooseHead (pad (count + 1) parts) := by
  intro first hfirst
  cases parts with
  | nil => simp [pad] at hfirst
  | cons part parts =>
      obtain rfl : first = ⟨count + 1, part.1, count + 1, part.2⟩ := by
        simpa [pad, eq_comm] using hfirst
      exact ⟨Nat.le_add_left 1 count, Nat.le_add_left 1 count⟩

/-- Every `>` has a blank behind it. -/
def BlankBehind (ops : List SpacedOp) : Prop :=
  ∀ spaced ∈ ops, spaced.op = .output → 1 ≤ spaced.behind

theorem blankBehind_append {front back : List SpacedOp} (hfront : BlankBehind front)
    (hback : BlankBehind back) : BlankBehind (front ++ back) :=
  List.forall_mem_append.mpr ⟨hfront, hback⟩

/-- That is enough to keep operators apart. -/
theorem BlankBehind.isChain {ops : List SpacedOp} (hbehind : BlankBehind ops) :
    ops.IsChain KeptApart := by
  induction ops with
  | nil => exact .nil
  | cons first ops ih =>
      apply (ih fun spaced hspaced => hbehind spaced (List.mem_cons_of_mem _ hspaced)).cons
      intro second _ hop _ hnothing
      have hpos := hbehind first List.mem_cons_self hop
      omega

theorem blankBehind_pad (count : ℕ) (parts : List (RedirOp × CString)) :
    BlankBehind (pad (count + 1) parts) := by
  intro spaced hspaced _
  obtain ⟨part, -, rfl⟩ := List.mem_map.mp hspaced
  exact Nat.le_add_left 1 count

/-- Trimming stops at an operator. -/
theorem RedirOp.dropTrailingSpaces_append_text (op : RedirOp) (front rest : CString) :
    dropTrailingSpaces (front ++ (op.text ++ rest)) =
      front ++ (op.text ++ dropTrailingSpaces rest) := by
  have hword : ∀ c ∈ op.text, isspace c = false := fun c hc => by
    rw [RedirOp.eq_byte_of_mem_text hc]
    exact op.isspace_byte
  have hne : op.text ++ dropTrailingSpaces rest ≠ [] := by
    cases op <;> simp [RedirOp.text]
  rw [dropTrailingSpaces_append, dropTrailingSpaces_word_append hword, if_neg hne]

theorem skipSpaces_append_of_not_white {text : CString} (htext : ¬ White text) (rest : CString) :
    skipSpaces (text ++ rest) = skipSpaces text ++ rest := by
  obtain ⟨lead, hlead, hwhite⟩ := exists_spaces_append_skipSpaces text
  cases hskip : skipSpaces text with
  | nil =>
      rw [hskip, List.append_nil] at hlead
      exact absurd (hlead ▸ hwhite) htext
  | cons c body =>
      have hc := (skipSpaces_eq_cons hskip).1
      rw [hskip] at hlead
      rw [hlead, List.append_assoc, skipSpaces_spaces_append hwhite, List.cons_append,
        skipSpaces_cons_of_not_isspace hc]

theorem RedirOp.trimWhitespace_text_append (op : RedirOp) (rest : CString) :
    trimWhitespace (op.text ++ rest) = op.text ++ dropTrailingSpaces rest := by
  have hskip : skipSpaces (op.text ++ rest) = op.text ++ rest := by
    apply skipSpaces_eq_self
    rw [op.head?_text_append]
    exact fun c hc => (Option.some.inj hc) ▸ op.isspace_byte
  rw [trimWhitespace, hskip]
  exact op.dropTrailingSpaces_append_text [] rest

theorem spell_pad_cons (count : ℕ) (text : CString) (part : RedirOp × CString)
    (rest : List (RedirOp × CString)) :
    spell text (pad count (part :: rest)) = text ++ (blanks count ++
      (part.1.text ++ (blanks count ++ spell part.2 (pad count rest)))) := rfl

/-- The blanks between a text and an operator are kept. -/
theorem trimWhitespace_append_text {text : CString} (htext : ¬ White text) (gap : CString)
    (op : RedirOp) (rest : CString) :
    trimWhitespace (text ++ (gap ++ (op.text ++ rest))) =
      skipSpaces text ++ (gap ++ (op.text ++ dropTrailingSpaces rest)) := by
  rw [trimWhitespace, skipSpaces_append_of_not_white htext, ← List.append_assoc,
    op.dropTrailingSpaces_append_text, List.append_assoc]

/-- The blanks in front of something else can be counted. -/
theorem blanks_append_inj {first second : ℕ} {text other : CString}
    (htext : text.head? ≠ some blank) (hother : other.head? ≠ some blank)
    (hsame : blanks first ++ text = blanks second ++ other) : first = second := by
  induction first generalizing second with
  | zero =>
      cases second with
      | zero => rfl
      | succ second => exact absurd (congrArg List.head? hsame) htext
  | succ first ih =>
      cases second with
      | zero => exact absurd (congrArg List.head? hsame).symm hother
      | succ second => rw [ih (congrArg List.tail hsame)]

theorem head?_text_ne_blank (op : RedirOp) (rest : CString) :
    (op.text ++ rest).head? ≠ some blank := by
  rw [op.head?_text_append]
  cases op <;> decide

/-- Blanks between a text and an operator can be counted, so that the text is white space. -/
theorem white_of_trimWhitespace_eq {text first second : CString} {op : RedirOp}
    (hsame : trimWhitespace (text ++ (blanks 1 ++ (op.text ++ first))) =
      trimWhitespace (text ++ (blanks 2 ++ (op.text ++ second)))) : White text := by
  by_contra htext
  rw [trimWhitespace_append_text htext, trimWhitespace_append_text htext] at hsame
  have hcount := blanks_append_inj (head?_text_ne_blank _ _) (head?_text_ne_blank _ _)
    (List.append_cancel_left hsame)
  simp at hcount

/-- The same for the blanks between the last operator and the text behind it. -/
theorem white_of_dropTrailingSpaces_eq {text : CString}
    (hsame : dropTrailingSpaces (blanks 1 ++ text) = dropTrailingSpaces (blanks 2 ++ text)) :
    White text := by
  by_contra hnot
  have hkept (count : ℕ) : dropTrailingSpaces (blanks count ++ text) =
      blanks count ++ dropTrailingSpaces text := by
    rw [dropTrailingSpaces_append, if_neg]
    exact fun hnil => hnot ((dropTrailingSpaces_eq_nil_iff text).mp hnil)
  have hlength := congrArg List.length ((hkept 1).symm.trans (hsame.trans (hkept 2)))
  simp [blanks] at hlength

/-- The same for the blanks between two operators. -/
theorem dropTrailingSpaces_spell_pad_ne {text : CString} (hhead : text.head? ≠ some blank)
    (part : RedirOp × CString) (rest : List (RedirOp × CString)) :
    dropTrailingSpaces (blanks 1 ++ spell text (pad 1 (part :: rest))) ≠
      dropTrailingSpaces (blanks 2 ++ spell text (pad 2 (part :: rest))) := by
  intro hsame
  have hkept (count : ℕ) (rest : CString) :
      dropTrailingSpaces (blanks count ++ (text ++ (blanks count ++ (part.1.text ++ rest)))) =
        blanks count ++ (text ++ (blanks count ++ (part.1.text ++ dropTrailingSpaces rest))) := by
    simpa using part.1.dropTrailingSpaces_append_text
      (blanks count ++ (text ++ blanks count)) rest
  rw [spell_pad_cons, spell_pad_cons, hkept, hkept] at hsame
  cases text with
  | nil =>
      -- without a text, the blanks on both sides come together
      have hcount : 2 = 4 :=
        blanks_append_inj (head?_text_ne_blank _ _) (head?_text_ne_blank _ _) hsame
      simp at hcount
  | cons c body =>
      have hcount : 1 = 2 := by
        apply blanks_append_inj _ _ hsame
        · exact hhead
        · exact hhead
      simp at hcount

/-- Only a quiet text reads the same with one blank and with two. -/
theorem quiet_of_trimWhitespace_eq {text : CString} {parts : List (RedirOp × CString)}
    (hfit : TextsFit text parts)
    (hsame : trimWhitespace (spell text (pad 1 parts)) =
      trimWhitespace (spell text (pad 2 parts))) : Quiet text parts := by
  cases parts with
  | nil => trivial
  | cons part rest =>
      rw [spell_pad_cons, spell_pad_cons] at hsame
      have htext := white_of_trimWhitespace_eq hsame
      rw [trimWhitespace_white_append htext, trimWhitespace_white_append htext,
        trimWhitespace_white_append (white_blanks 1), trimWhitespace_white_append (white_blanks 2),
        part.1.trimWhitespace_text_append, part.1.trimWhitespace_text_append] at hsame
      have hbehind := List.append_cancel_left hsame
      cases rest with
      | nil => exact ⟨htext, white_of_dropTrailingSpaces_eq hbehind⟩
      | cons next later =>
          exact absurd hbehind (dropTrailingSpaces_spell_pad_ne hfit.1.2.2 next later)

/-- Two operators with nothing between them but the first one's text. -/
def tight (first next : RedirOp × CString) : List SpacedOp :=
  [⟨1, first.1, 0, first.2⟩, ⟨0, next.1, 1, next.2⟩]

theorem RedirOp.solid_text (op : RedirOp) : Solid op.text := by
  intro before tail htail
  rw [op.dropTrailingSpaces_append_text, (dropTrailingSpaces_eq_nil_iff tail).mpr htail,
    List.append_nil]

/-- Of two operators that stand like this, the second is not found as the operand of the
first. -/
theorem Searches.take_tight {cut : CString → Option (CString × CString)}
    {first next : RedirOp × CString} (hcut : Searches cut first.1.text) (hgap : White first.2)
    (hhead : first.2.head? ≠ some blank) (hwhite : White next.2)
    (hmistakable : Mistakable first next.1) (command : CString) (front : List SpacedOp)
    (count : ℕ) :
    (takeOperand cut (spell command (front ++ tight first next) ++ blanks count)).2 ≠
      some next.1.text := by
  have hshape : spell command (front ++ tight first next) ++ blanks count =
      (spell command front ++ blanks 1) ++ (first.1.text ++ (first.2 ++
        (next.1.text ++ blank :: (next.2 ++ blanks count)))) := by
    rw [tight, spell_append_cons]
    simp [spell, blanks]
  have htail : White (blank :: (next.2 ++ blanks count)) :=
    white_cons_blank.mpr (white_append.mpr ⟨hwhite, white_blanks count⟩)
  rw [hshape]
  apply hcut.take_ne first.1.solid_text next.1.solid_text hgap hhead htail
  rcases hmistakable with hsame | ⟨happend, hempty, houtput⟩
  · rw [hsame]
    exact ⟨(spell command front ++ blanks 1) ++ (first.1.text ++ first.2),
      next.2 ++ blanks count, by simp⟩
  · rw [happend, hempty, houtput]
    exact ⟨(spell command front ++ blanks 1) ++ [greater], next.2 ++ blanks count,
      by simp [RedirOp.text, RedirOp.byte]⟩

theorem blankBehind_tight {first next : RedirOp × CString} (hfirst : first.1 ≠ .output) :
    BlankBehind (tight first next) := by
  intro spaced hspaced houtput
  rcases List.mem_pair.mp hspaced with rfl | rfl
  · exact absurd houtput hfirst
  · exact Nat.le_refl 1

/-- No blank comes in front of an operator where there are none around the others. -/
theorem getLast?_spell_pad_zero {command : CString} {front rest : List (RedirOp × CString)}
    {part : RedirOp × CString} (hfit : TextsFit command (front ++ part :: rest)) :
    (spell command (pad 0 front)).getLast? ≠ some blank := by
  induction front generalizing command with
  | nil => exact hfit.1.2.1
  | cons first front ih =>
      have hlast := ih hfit.2
      rw [spell_pad_cons, blanks_zero, List.nil_append, List.nil_append, ← List.append_assoc,
        List.getLast?_append]
      cases hinner : (spell first.2 (pad 0 front)).getLast? with
      | none =>
          rw [Option.none_or, first.1.getLast?_append_text]
          cases first.1 <;> decide
      | some c => simpa [hinner] using hlast

/-- Of two `>` without a blank in front of the first, the second is found. -/
theorem takeOutput_second {front : CString} {first next : CString} (hfront : greater ∉ front)
    (hlast : front.getLast? ≠ some blank) (hgap : White first) (hwhite : White next)
    (hclear : ¬ [greater, greater] <:+:
      front ++ greater :: ((blank :: first) ++ blank :: greater :: blank :: next)) :
    (takeOutput (front ++ greater :: ((blank :: first) ++ blank :: greater :: blank :: next))).2.1 =
      some [] := by
  have hspaced := cutSpaced_of_second (by decide) hfront hlast
    ((white_cons_blank.mpr hgap).not_mem (c := greater) (by decide)) next
  have htrim : trimWhitespace next = [] := by
    rw [trimWhitespace_eq, (dropTrailingSpaces_eq_nil_iff next).mpr hwhite]
    rfl
  rw [takeOutput_eq_byte hclear, takeOperand, (searches_byte greater).of_spaced hspaced, htrim]

/-- A piece is settled if one blank and two give the same operand, and no operator of it may
be found in the place of the first. -/
theorem settled_of_operandOf_eq {pieces : List (RedirOp × CString)}
    (hfit : ∀ first rest, pieces = first :: rest → TextsFit first.2 rest)
    (hsame : operandOf (pad 1 pieces) = operandOf (pad 2 pieces))
    (hmistakable : ∀ first next, pieces = [first, next] → White first.2 → White next.2 →
      Mistakable first next.1 → operandOf (pad 1 pieces) ≠ some next.1.text) :
    Settled pieces := by
  match pieces with
  | [] => trivial
  | first :: rest =>
      have hquiet : Quiet first.2 rest :=
        quiet_of_trimWhitespace_eq (hfit first rest rfl) (Option.some.inj hsame)
      refine ⟨hquiet, ?_⟩
      match rest with
      | [] => exact fun next hnext => absurd hnext List.not_mem_nil
      | [next] =>
          intro other hother hmistaken
          rw [List.mem_singleton.mp hother] at hmistaken
          apply hmistakable first next rfl hquiet.1 hquiet.2 hmistaken
          exact congrArg some (trimWhitespace_spell_singleton hquiet.1 hquiet.2)
      | _ :: _ :: _ => exact hquiet.elim

/-- What the piece gives to a search that finds its first operator, written tight. -/
def GivesTight (pieces : List (RedirOp × CString)) (first next : RedirOp × CString) : Prop :=
  ∃ cut, Searches cut first.1.text ∧ ∃ command front count, operandOf (pad 1 pieces) =
    (takeOperand cut (spell command (front ++ tight first next) ++ blanks count)).2

/-- A piece of two operators is not settled unless its operand survives being written tight. -/
theorem settled_of_tight {command : CString} {front pieces back : List (RedirOp × CString)}
    (hfit : TextsFit command ((front ++ pieces) ++ back))
    (hsame : operandOf (pad 1 pieces) = operandOf (pad 2 pieces))
    (htight : ∀ first next, pieces = [first, next] → GivesTight pieces first next) :
    Settled pieces := by
  have hpieces := hfit.of_append
  apply settled_of_operandOf_eq _ hsame
  · rintro first next rfl hfirst hnext hmistaken hoperand
    obtain ⟨cut, hcut, command', front', count, hgives⟩ := htight first next rfl
    exact hcut.take_tight hfirst hpieces.of_append_cons.2 hnext hmistaken command' front' count
      (hgives.symm.trans hoperand)
  · rintro first rest rfl
    exact hpieces.of_append_cons.1

/-- The pieces of a command whose spellings all give the same. -/
structure Unspaced (command : CString) (kind : RedirOp)
    (commands pipes inputs outputs : List (RedirOp × CString)) : Prop where
  divided : Divided command kind commands pipes inputs outputs
  same : ∀ ops others : List SpacedOp,
    ops.map SpacedOp.part = ((commands ++ pipes) ++ inputs) ++ outputs →
    others.map SpacedOp.part = ((commands ++ pipes) ++ inputs) ++ outputs →
    ops.IsChain KeptApart → others.IsChain KeptApart →
      found (spell command ops) = found (spell command others)

namespace Unspaced

variable {command : CString} {kind : RedirOp}
  {commands pipes inputs outputs : List (RedirOp × CString)}
  (hunspaced : Unspaced command kind commands pipes inputs outputs)
include hunspaced

theorem spelling_of_behind {cs ps is os : List SpacedOp} (hcs : cs.map SpacedOp.part = commands)
    (hps : ps.map SpacedOp.part = pipes) (his : is.map SpacedOp.part = inputs)
    (hos : os.map SpacedOp.part = outputs) (hbehind : BlankBehind (((cs ++ ps) ++ is) ++ os)) :
    Spelling command kind cs ps is os where
  divided := by
    rw [hcs, hps, his, hos]
    exact hunspaced.divided
  apart := hbehind.isChain

/-- Blanks everywhere. -/
theorem spelling_pad (count : ℕ) : Spelling command kind (pad (count + 1) commands)
    (pad (count + 1) pipes) (pad (count + 1) inputs) (pad (count + 1) outputs) := by
  apply hunspaced.spelling_of_behind (map_part_pad _ _) (map_part_pad _ _) (map_part_pad _ _)
    (map_part_pad _ _)
  apply blankBehind_append _ (blankBehind_pad _ _)
  apply blankBehind_append _ (blankBehind_pad _ _)
  exact blankBehind_append (blankBehind_pad _ _) (blankBehind_pad _ _)

theorem found_pad (count : ℕ) :
    found (spell command (((pad (count + 1) commands ++ pad (count + 1) pipes) ++
        pad (count + 1) inputs) ++ pad (count + 1) outputs)) =
      (trimWhitespace (spell command (pad (count + 1) commands)),
        pieceRecord kind (pad (count + 1) pipes) (pad (count + 1) inputs)
          (pad (count + 1) outputs)) :=
  (hunspaced.spelling_pad count).found_loose (looseHead_pad count pipes)
    (looseHead_pad count inputs) (looseHead_pad count outputs)

/-- Any spelling gives what the one with single blanks gives. -/
theorem found_eq {cs ps is os : List SpacedOp}
    (hspelling : Spelling command kind cs ps is os)
    (hcs : cs.map SpacedOp.part = commands) (hps : ps.map SpacedOp.part = pipes)
    (his : is.map SpacedOp.part = inputs) (hos : os.map SpacedOp.part = outputs) :
    found (spell command (((cs ++ ps) ++ is) ++ os)) =
      (trimWhitespace (spell command (pad 1 commands)),
        pieceRecord kind (pad 1 pipes) (pad 1 inputs) (pad 1 outputs)) := by
  rw [← hunspaced.found_pad 0]
  apply hunspaced.same
  · simp only [List.map_append, hcs, hps, his, hos]
  · simp only [List.map_append, map_part_pad]
  · exact hspelling.apart
  · exact (hunspaced.spelling_pad 0).apart

/-- One blank and two give the same. -/
theorem pad_one_eq :
    (trimWhitespace (spell command (pad 1 commands)),
        pieceRecord kind (pad 1 pipes) (pad 1 inputs) (pad 1 outputs)) =
      (trimWhitespace (spell command (pad 2 commands)),
        pieceRecord kind (pad 2 pipes) (pad 2 inputs) (pad 2 outputs)) := by
  rw [← hunspaced.found_pad 1]
  exact (hunspaced.found_eq (hunspaced.spelling_pad 1) (map_part_pad _ _) (map_part_pad _ _)
    (map_part_pad _ _) (map_part_pad _ _)).symm

theorem quiet_commands : Quiet command commands := by
  apply quiet_of_trimWhitespace_eq hunspaced.divided.fit.of_append.of_append.of_append
  exact (Prod.mk.inj hunspaced.pad_one_eq).1

theorem settled_inputs : Settled inputs := by
  apply settled_of_tight hunspaced.divided.fit
  · exact congrArg (·.2.inputFile) hunspaced.pad_one_eq
  · rintro first next rfl
    have hop : first.1 = .input := hunspaced.divided.at_input.head_back first rfl
    have hspelling : Spelling command kind (pad 1 commands) (pad 1 pipes) (tight first next)
        (pad 1 outputs) := by
      apply hunspaced.spelling_of_behind (map_part_pad _ _) (map_part_pad _ _) rfl
        (map_part_pad _ _)
      apply blankBehind_append _ (blankBehind_pad _ _)
      apply blankBehind_append _ (blankBehind_tight (by simp [hop]))
      exact blankBehind_append (blankBehind_pad _ _) (blankBehind_pad _ _)
    obtain ⟨count, hinput⟩ := hspelling.inputFile_eq (looseHead_pad 0 outputs)
    rw [hunspaced.found_eq hspelling (map_part_pad _ _) (map_part_pad _ _) rfl
      (map_part_pad _ _)] at hinput
    refine ⟨cutByte less, ?_, command, _, count, hinput⟩
    rw [hop]
    exact searches_byte less

theorem settled_pipes : Settled pipes := by
  apply settled_of_tight hunspaced.divided.fit.of_append
  · exact congrArg (·.2.pipeCommand) hunspaced.pad_one_eq
  · rintro first next rfl
    have hop : first.1 = .pipe := hunspaced.divided.at_pipe.head_back first rfl
    have hspelling : Spelling command kind (pad 1 commands) (tight first next) (pad 1 inputs)
        (pad 1 outputs) := by
      apply hunspaced.spelling_of_behind (map_part_pad _ _) rfl (map_part_pad _ _)
        (map_part_pad _ _)
      apply blankBehind_append _ (blankBehind_pad _ _)
      apply blankBehind_append _ (blankBehind_pad _ _)
      exact blankBehind_append (blankBehind_pad _ _) (blankBehind_tight (by simp [hop]))
    obtain ⟨count, hpipe⟩ :=
      hspelling.pipeCommand_eq (looseHead_pad 0 inputs) (looseHead_pad 0 outputs)
    rw [hunspaced.found_eq hspelling (map_part_pad _ _) rfl (map_part_pad _ _)
      (map_part_pad _ _)] at hpipe
    refine ⟨cutByte bar, ?_, command, _, count, hpipe⟩
    rw [hop]
    exact searches_byte bar

/-- The operand of the first `>>` is the same where the next operator comes close to it. -/
theorem givesTight_append (hkind : kind = .append) {first next : RedirOp × CString}
    (hpieces : outputs = [first, next]) : GivesTight outputs first next := by
  subst hpieces hkind
  have hop : first.1 = .append := hunspaced.divided.at_output.head_back first rfl
  have hspelling : Spelling command .append (pad 1 commands) (pad 1 pipes) (pad 1 inputs)
      (tight first next) := by
    apply hunspaced.spelling_of_behind (map_part_pad _ _) (map_part_pad _ _) (map_part_pad _ _) rfl
    apply blankBehind_append _ (blankBehind_tight (by simp [hop]))
    apply blankBehind_append _ (blankBehind_pad _ _)
    exact blankBehind_append (blankBehind_pad _ _) (blankBehind_pad _ _)
  have houtput := congrArg (·.2.outputFile) (hunspaced.found_eq hspelling (map_part_pad _ _)
    (map_part_pad _ _) (map_part_pad _ _) rfl)
  have hin : [greater, greater] <:+: spell command
      (((pad 1 commands ++ pad 1 pipes) ++ pad 1 inputs) ++ tight first next) := by
    rw [tight, spell_append_cons, hop, ← List.append_assoc]
    exact List.infix_append' _ _ _
  change (takeOutput _).2.1 = _ at houtput
  rw [takeOutput_eq_append hin] at houtput
  refine ⟨cutAppend, ?_, command, (pad 1 commands ++ pad 1 pipes) ++ pad 1 inputs, 0, ?_⟩
  · rw [hop]
    exact searches_append
  · rw [blanks_zero, List.append_nil]
    exact houtput.symm

/-- Without a `>>`, the pieces in front of the output have no `>` in them. -/
theorem greater_not_mem_front (hkind : kind = .output) (count : ℕ) :
    greater ∉ spell command (pad count ((commands ++ pipes) ++ inputs)) := by
  subst hkind
  have hnone := (hunspaced.divided.kind_eq.resolve_left fun happend =>
    absurd happend.1 (by decide)).2
  change RedirOp.output.byte ∉ _
  apply byte_not_mem_spell
  · rw [map_part_pad]
    exact hunspaced.divided.fit.of_append
  · intro spaced hspaced
    obtain ⟨part, hpart, rfl⟩ := List.mem_map.mp hspaced
    apply RedirOp.byte_ne_greater (hnone part (List.mem_append_left _ hpart))
    exact hunspaced.divided.at_output.not_front part hpart

/-- No blanks up to the second of two `>`. -/
theorem spelling_second (hkind : kind = .output) {first next : RedirOp × CString}
    (hpieces : outputs = [first, next]) :
    Spelling command kind (pad 0 commands) (pad 0 pipes) (pad 0 inputs)
      [⟨0, first.1, 1, first.2⟩, ⟨1, next.1, 1, next.2⟩] := by
  subst hpieces hkind
  apply hunspaced.spelling_of_behind (map_part_pad _ _) (map_part_pad _ _) (map_part_pad _ _) rfl
  rw [pad, pad, pad, ← List.map_append, ← List.map_append]
  apply blankBehind_append
  · intro spaced hspaced houtput
    obtain ⟨part, hpart, rfl⟩ := List.mem_map.mp hspaced
    exact absurd houtput (hunspaced.divided.at_output.not_front part hpart)
  · intro spaced hspaced _
    rcases List.mem_pair.mp hspaced with rfl | rfl <;> exact Nat.le_refl 1

/-- The second of two `>` is found where there is no blank in front of the first. -/
theorem operandOf_ne_output (hkind : kind = .output) {first next : RedirOp × CString}
    (hpieces : outputs = [first, next]) (hfirst : White first.2) (hnext : White next.2)
    (hmistaken : Mistakable first next.1) :
    operandOf (pad 1 outputs) ≠ some next.1.text := by
  have hspelling := hunspaced.spelling_second hkind hpieces
  have hnot := hunspaced.greater_not_mem_front hkind 0
  subst hpieces hkind
  have hop : first.1 = .output := hunspaced.divided.at_output.head_back first rfl
  have hnextOp : next.1 = .output := by
    rcases hmistaken with hsame | ⟨happend, -⟩
    · exact hsame.trans hop
    · exact absurd (hop.symm.trans happend) (by decide)
  have hshape : spell command (((pad 0 commands ++ pad 0 pipes) ++ pad 0 inputs) ++
      [⟨0, first.1, 1, first.2⟩, ⟨1, next.1, 1, next.2⟩]) =
      spell command (pad 0 ((commands ++ pipes) ++ inputs)) ++
        greater :: ((blank :: first.2) ++ blank :: greater :: blank :: next.2) := by
    rw [spell_append_cons, hop, hnextOp, pad, pad, pad, pad, List.map_append, List.map_append]
    rfl
  have hat := hspelling.outputAt
  have hnone := (hat.kind_eq.resolve_left fun happend => absurd happend.1 (by decide)).2
  have hclear := no_double_spell hat.fit hat.apart hnone
  have houtput := congrArg (·.2.outputFile) (hunspaced.found_eq hspelling (map_part_pad _ _)
    (map_part_pad _ _) (map_part_pad _ _) rfl)
  change (takeOutput _).2.1 = _ at houtput
  rw [hshape] at houtput hclear
  rw [takeOutput_second hnot (getLast?_spell_pad_zero hunspaced.divided.fit) hfirst hnext hclear]
    at houtput
  intro hoperand
  have hempty : some [] = some next.1.text := houtput.trans hoperand
  rw [hnextOp] at hempty
  exact absurd hempty (by decide)

theorem settled_outputs : Settled outputs := by
  have hsame := congrArg (·.2.outputFile) hunspaced.pad_one_eq
  rcases hunspaced.divided.kind_eq with ⟨hkind, -⟩ | ⟨hkind, -⟩
  · have hfit := hunspaced.divided.fit
    rw [← List.append_nil (_ ++ outputs)] at hfit
    exact settled_of_tight hfit hsame fun first next => hunspaced.givesTight_append hkind
  · apply settled_of_operandOf_eq _ hsame
    · intro first next hpieces
      exact hunspaced.operandOf_ne_output hkind hpieces
    · rintro first rest rfl
      exact hunspaced.divided.fit.of_append_cons.1

end Unspaced

/-- The same command with other blanks next to its operators. -/
def Respaced (text other : CString) : Prop :=
  ∃ line another : SpacedCommand, line.text = text ∧ another.text = other ∧
    another.skeleton = line.skeleton

/-- Other blanks next to the operators do not change what is found. -/
def BlanksInsignificant (text : CString) : Prop :=
  ∀ other, Respaced text other → found other = found text

theorem steady_of_blanksInsignificant {line : SpacedCommand}
    (hsame : BlanksInsignificant line.text) : Steady line.skeleton := by
  obtain ⟨commands, pipes, inputs, outputs, hsplit, hdivided, hiff⟩ := exists_divided line.fit
  have hunspaced : Unspaced line.command (outputOp (line.ops.map SpacedOp.part)) commands pipes
      inputs outputs := by
    refine ⟨hdivided, fun ops others hops hothers hapart hapart' => ?_⟩
    have hfirst : ops.map SpacedOp.part = line.ops.map SpacedOp.part := hops.trans hsplit.symm
    have hsecond : others.map SpacedOp.part = line.ops.map SpacedOp.part :=
      hothers.trans hsplit.symm
    have hone := hsame _
      ⟨line, ⟨line.command, ops, hfirst ▸ line.fit, hapart⟩, rfl, rfl, Prod.ext rfl hfirst⟩
    have htwo := hsame _
      ⟨line, ⟨line.command, others, hsecond ▸ line.fit, hapart'⟩, rfl, rfl, Prod.ext rfl hsecond⟩
    exact hone.trans htwo.symm
  exact hiff.mpr ⟨hunspaced.quiet_commands, hunspaced.settled_pipes, hunspaced.settled_inputs,
    hunspaced.settled_outputs⟩

/-- **Blanks around operators are significant.** Every string is a command with operators, and
the blanks next to them do not matter if and only if the command is steady. -/
theorem blanksInsignificant_iff (text : CString) :
    (∃ line : SpacedCommand, line.text = text) ∧
      (BlanksInsignificant text ↔
        ∀ line : SpacedCommand, line.text = text → Steady line.skeleton) := by
  refine ⟨exists_spacedCommand text, fun hsame line hline => ?_, fun hsteady other hother => ?_⟩
  · subst hline
    exact steady_of_blanksInsignificant hsame
  · obtain ⟨line, another, hline, rfl, hskeleton⟩ := hother
    rw [← hline]
    exact SpacedCommand.found_eq_of_steady (hsteady line hline) hskeleton

theorem textsFit_twoOutputs :
    TextsFit (cstr "a") [(.output, cstr "b"), (.output, cstr "c")] :=
  ⟨⟨by decide +kernel, by decide +kernel, by decide +kernel⟩,
    ⟨by decide +kernel, by decide +kernel, by decide +kernel⟩,
    show NoOperator (cstr "c") by decide +kernel⟩

/-- `a>b > c` with no blanks around the first operator, `a > b > c` with one. -/
def twoOutputs (count : ℕ) : SpacedCommand where
  command := cstr "a"
  ops := [⟨count, .output, count, cstr "b"⟩, ⟨1, .output, 1, cstr "c"⟩]
  fit := textsFit_twoOutputs
  apart := List.isChain_pair.mpr fun _ hempty =>
    absurd hempty (show cstr "b" ≠ [] by decide +kernel)

/-- `a>b > c` is the command `a>b` with the output file `c`, and `a > b > c` is the command `a`
with the output file `b > c`. -/
theorem not_blanksInsignificant_twoOutputs :
    Respaced (cstr "a > b > c") (cstr "a>b > c") ∧
      ¬ BlanksInsignificant (cstr "a > b > c") := by
  have hrespaced : Respaced (cstr "a > b > c") (cstr "a>b > c") :=
    ⟨twoOutputs 1, twoOutputs 0, by decide +kernel, by decide +kernel, rfl⟩
  refine ⟨hrespaced, fun hsame => ?_⟩
  have hfound := hsame _ hrespaced
  revert hfound
  decide +kernel

end BasC
