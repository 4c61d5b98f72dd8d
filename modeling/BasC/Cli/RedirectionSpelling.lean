/-
# Commands as they are spelled

A command is a text and operators with a text each. Blanks next to an operator belong to
neither text, so a command has many spellings. Every string is the spelling of some command.
Where no `>>` is meant, no two `>` come together.
-/

import Mathlib.Data.List.Chain
import BasC.Cli.RedirectionOrder

namespace BasC

open CChar Lib

/-- A run of blanks. -/
def blanks (count : ℕ) : CString := List.replicate count blank

/-- An operator with the blanks around it, and the text behind them. -/
structure SpacedOp where
  before : ℕ
  op : RedirOp
  behind : ℕ
  text : CString

/-- What is left of it without the blanks. -/
def SpacedOp.part (spaced : SpacedOp) : RedirOp × CString := (spaced.op, spaced.text)

/-- A text and the operators behind it as they are written. -/
def spell : CString → List SpacedOp → CString
  | text, [] => text
  | text, spaced :: rest =>
      text ++ (blanks spaced.before ++
        (spaced.op.text ++ (blanks spaced.behind ++ spell spaced.text rest)))

/-- The texts have no operators in them, and no blanks next to one. -/
def TextsFit : CString → List (RedirOp × CString) → Prop
  | text, [] => NoOperator text
  | text, part :: rest =>
      (NoOperator text ∧ text.getLast? ≠ some blank ∧ part.2.head? ≠ some blank) ∧
        TextsFit part.2 rest

/-- Two operators that are read as what they are: a `>` does not run into another one. -/
def KeptApart (first second : SpacedOp) : Prop :=
  first.op = .output → first.text = [] → first.behind + second.before = 0 →
    second.op.byte ≠ greater

/-- A command string, divided at its operators. -/
structure SpacedCommand where
  command : CString
  ops : List SpacedOp
  fit : TextsFit command (ops.map SpacedOp.part)
  apart : ops.IsChain KeptApart

namespace SpacedCommand

/-- The command string. -/
def text (line : SpacedCommand) : CString := spell line.command line.ops

/-- The command string without the blanks next to operators. -/
def skeleton (line : SpacedCommand) : CString × List (RedirOp × CString) :=
  (line.command, line.ops.map SpacedOp.part)

end SpacedCommand

theorem white_blanks (count : ℕ) : White (blanks count) := fun c hc => by
  rw [List.eq_of_mem_replicate hc]
  exact isspace_blank

theorem blanks_zero : blanks 0 = [] := rfl

theorem blanks_succ (count : ℕ) : blanks (count + 1) = blank :: blanks count := rfl

theorem spell_append_cons (text : CString) (front : List SpacedOp) (spaced : SpacedOp)
    (rest : List SpacedOp) :
    spell text (front ++ spaced :: rest) =
      spell text front ++ (blanks spaced.before ++
        (spaced.op.text ++ (blanks spaced.behind ++ spell spaced.text rest))) := by
  induction front generalizing text with
  | nil => rfl
  | cons first front ih => simp [spell, ih]

theorem TextsFit.noOperator {text : CString} {parts : List (RedirOp × CString)}
    (hfit : TextsFit text parts) : NoOperator text := by
  cases parts with
  | nil => exact hfit
  | cons part rest => exact hfit.1.1

theorem TextsFit.of_append {text : CString} {front back : List (RedirOp × CString)}
    (hfit : TextsFit text (front ++ back)) : TextsFit text front := by
  induction front generalizing text with
  | nil => exact hfit.noOperator
  | cons part front ih => exact ⟨hfit.1, ih hfit.2⟩

/-- What is behind an operator is again a text with operators. -/
theorem TextsFit.of_append_cons {text : CString} {front rest : List (RedirOp × CString)}
    {part : RedirOp × CString} (hfit : TextsFit text (front ++ part :: rest)) :
    TextsFit part.2 rest ∧ part.2.head? ≠ some blank := by
  induction front generalizing text with
  | nil => exact ⟨hfit.2, hfit.1.2.2⟩
  | cons first front ih => exact ih hfit.2

/-- An operator that is not among those of a command does not occur in it. -/
theorem byte_not_mem_spell {text : CString} {ops : List SpacedOp}
    (hfit : TextsFit text (ops.map SpacedOp.part)) {op : RedirOp}
    (hnot : ∀ spaced ∈ ops, spaced.op.byte ≠ op.byte) : op.byte ∉ spell text ops := by
  induction ops generalizing text with
  | nil => exact hfit.not_mem_byte op
  | cons spaced ops ih =>
      have htext : op.byte ∉ text := hfit.noOperator.not_mem_byte op
      have hop : op.byte ∉ spaced.op.text := fun hin =>
        hnot spaced List.mem_cons_self (RedirOp.eq_byte_of_mem_text hin).symm
      have hrest : op.byte ∉ spell spaced.text ops :=
        ih hfit.2 fun other hother => hnot other (List.mem_cons_of_mem _ hother)
      have hblanks (count : ℕ) : op.byte ∉ blanks count :=
        (white_blanks count).not_mem op.isspace_byte
      simp [spell, htext, hop, hrest, hblanks]

theorem exists_blanks_append (text : CString) :
    ∃ count body, text = blanks count ++ body ∧ body.head? ≠ some blank := by
  induction text with
  | nil => exact ⟨0, [], rfl, by simp⟩
  | cons c text ih =>
      by_cases hc : c = blank
      · obtain ⟨count, body, rfl, hhead⟩ := ih
        exact ⟨count + 1, body, by rw [hc, blanks_succ, List.cons_append], hhead⟩
      · exact ⟨0, c :: text, rfl, by simpa using hc⟩

theorem exists_append_blanks (text : CString) :
    ∃ body count, text = body ++ blanks count ∧ body.getLast? ≠ some blank := by
  obtain ⟨count, body, hsplit, hhead⟩ := exists_blanks_append text.reverse
  refine ⟨body.reverse, count, ?_, by rwa [List.getLast?_reverse]⟩
  rw [← List.reverse_reverse text, hsplit, List.reverse_append, blanks, List.reverse_replicate]

/-- A text with an operator up to the first one. -/
theorem exists_first_operator {text : CString} (hoperator : ¬ NoOperator text) :
    ∃ plain c tail, text = plain ++ c :: tail ∧ NoOperator plain ∧ isOperator c = true := by
  induction text with
  | nil => exact absurd (fun c hc => absurd hc List.not_mem_nil) hoperator
  | cons c text ih =>
      by_cases hc : isOperator c = true
      · exact ⟨[], c, text, rfl, fun d hd => absurd hd List.not_mem_nil, hc⟩
      · have htail : ¬ NoOperator text := fun hplain =>
          hoperator (List.forall_mem_cons.mpr ⟨by simpa using hc, hplain⟩)
        obtain ⟨plain, d, tail, rfl, hplain, hd⟩ := ih htail
        exact ⟨c :: plain, d, tail, rfl,
          List.forall_mem_cons.mpr ⟨by simpa using hc, hplain⟩, hd⟩

/-- An operator byte begins an operator, `>>` where there are two. -/
theorem exists_op {c : CChar} (hc : isOperator c = true) (tail : CString) :
    ∃ op rest, c :: tail = RedirOp.text op ++ rest ∧
      (op = .output → rest.head? ≠ some greater) := by
  simp only [isOperator, Bool.or_eq_true, decide_eq_true_eq] at hc
  rcases hc with (rfl | rfl) | rfl
  · by_cases hhead : tail.head? = some greater
    · obtain ⟨rest, rfl⟩ := List.head?_eq_some_iff.mp hhead
      exact ⟨.append, rest, rfl, by simp⟩
    · exact ⟨.output, tail, rfl, fun _ => hhead⟩
  · exact ⟨.input, tail, rfl, by simp⟩
  · exact ⟨.pipe, tail, rfl, by simp⟩

theorem spell_append (lead text : CString) (ops : List SpacedOp) :
    spell (lead ++ text) ops = lead ++ spell text ops := by
  cases ops with
  | nil => rfl
  | cons spaced rest => simp [spell]

theorem TextsFit.of_lead {lead text : CString} {parts : List (RedirOp × CString)}
    (hfit : TextsFit (lead ++ text) parts) : TextsFit text parts := by
  have hplain := (noOperator_append.mp hfit.noOperator).2
  cases parts with
  | nil => exact hplain
  | cons part rest =>
      refine ⟨⟨hplain, fun hlast => hfit.1.2.1 ?_, hfit.1.2.2⟩, hfit.2⟩
      rw [List.getLast?_append, hlast, Option.some_or]

/-- Every string is one that the spacing of a command spells. -/
theorem exists_spacedCommand (text : CString) : ∃ line : SpacedCommand, line.text = text := by
  induction hlength : text.length using Nat.strong_induction_on generalizing text with
  | _ length ih =>
    subst hlength
    by_cases hplain : NoOperator text
    · exact ⟨⟨text, [], hplain, .nil⟩, rfl⟩
    obtain ⟨plain, c, tail, rfl, hplain, hc⟩ := exists_first_operator hplain
    obtain ⟨op, rest, hop, hkept⟩ := exists_op hc tail
    have hshorter : rest.length < (plain ++ c :: tail).length := by
      have hpos := List.length_pos_of_mem op.byte_mem_text
      rw [hop, List.length_append, List.length_append]
      omega
    obtain ⟨⟨command, ops, hfit, hapart⟩, hrest⟩ := ih _ hshorter rest rfl
    -- the blanks next to the operator belong to it
    obtain ⟨core, before, rfl, hlast⟩ := exists_append_blanks plain
    obtain ⟨behind, body, rfl, hhead⟩ := exists_blanks_append command
    have hchain : (SpacedOp.mk before op behind body :: ops).IsChain KeptApart := by
      apply hapart.cons
      rintro second hsecond rfl rfl hnone hbyte
      obtain ⟨later, rfl⟩ := List.head?_eq_some_iff.mp hsecond
      obtain ⟨rfl, hbefore⟩ : behind = 0 ∧ second.before = 0 := Nat.add_eq_zero_iff.mp hnone
      apply hkept rfl
      rw [← hrest, ← hbyte, SpacedCommand.text, spell, hbefore]
      exact second.op.head?_text_append _
    have hfits : TextsFit core ((op, body) :: ops.map SpacedOp.part) :=
      ⟨⟨(noOperator_append.mp hplain).1, hlast, hhead⟩, hfit.of_lead⟩
    refine ⟨⟨core, ⟨before, op, behind, body⟩ :: ops, hfits, hchain⟩, ?_⟩
    rw [hop, ← hrest]
    simp [SpacedCommand.text, spell, spell_append]

theorem some_blank_ne_greater : some blank ≠ some greater := by decide

theorem head?_blanks_succ (count : ℕ) (rest : CString) :
    (blanks (count + 1) ++ rest).head? = some blank := rfl

theorem getLast?_blanks_succ (front : CString) (count : ℕ) :
    (front ++ blanks (count + 1)).getLast? = some blank := by
  rw [blanks, List.replicate_succ', ← List.append_assoc, List.getLast?_concat]

/-- What is behind an operator begins with a `>` only where the next operator does and
nothing is between the two. -/
theorem head?_spell_ne_greater {text : CString} {rest : List SpacedOp}
    (hfit : TextsFit text (rest.map SpacedOp.part)) (count : ℕ)
    (hkept : text = [] → ∀ second ∈ rest.head?, count + second.before = 0 →
      second.op.byte ≠ greater) :
    (blanks count ++ spell text rest).head? ≠ some greater := by
  cases count with
  | succ count =>
      rw [head?_blanks_succ]
      exact some_blank_ne_greater
  | zero =>
      cases text with
      | cons c text =>
          have hc : c ≠ greater := fun hc =>
            hfit.noOperator.not_mem_byte .output (by simp [RedirOp.byte, hc])
          cases rest <;> simpa [blanks, spell] using hc
      | nil =>
          cases rest with
          | nil => simp [blanks, spell]
          | cons second rest =>
              cases hbefore : second.before with
              | succ before =>
                  rw [spell, hbefore]
                  exact some_blank_ne_greater
              | zero =>
                  have hbyte := hkept rfl second rfl (by rw [hbefore])
                  rw [spell, hbefore, blanks_zero, List.nil_append, List.nil_append,
                    List.nil_append, second.op.head?_text_append]
                  simpa using hbyte

/-- What is in front of an operator ends with a `>` only where the operator before does and
nothing is between the two. -/
theorem getLast?_spell_ne_greater {text : CString} {front : List SpacedOp}
    (hfit : TextsFit text (front.map SpacedOp.part)) (count : ℕ)
    (hkept : ∀ last ∈ front.getLast?, last.text = [] → last.behind + count = 0 →
      last.op.byte ≠ greater) :
    (spell text front ++ blanks count).getLast? ≠ some greater := by
  cases count with
  | succ count =>
      rw [getLast?_blanks_succ]
      exact some_blank_ne_greater
  | zero =>
      rw [blanks_zero, List.append_nil]
      rcases List.eq_nil_or_concat' front with rfl | ⟨front, last, rfl⟩
      · exact fun hlast => hfit.not_mem_byte .output (List.mem_of_getLast? hlast)
      · have hlast := hkept last (by simp)
        rw [List.map_append] at hfit
        have hplain : NoOperator last.text := hfit.of_append_cons.1.noOperator
        rw [spell_append_cons, spell, ← List.append_assoc, ← List.append_assoc,
          ← List.append_assoc]
        by_cases hempty : last.text = []
        · rw [hempty, List.append_nil]
          cases hbehind : last.behind with
          | succ behind =>
              rw [getLast?_blanks_succ]
              exact some_blank_ne_greater
          | zero =>
              rw [blanks_zero, List.append_nil, last.op.getLast?_append_text]
              exact fun hbyte => hlast hempty (by rw [hbehind]) (Option.some.inj hbyte)
        · rw [List.getLast?_append_of_ne_nil _ hempty]
          exact fun hbyte => hplain.not_mem_byte .output (List.mem_of_getLast? hbyte)

theorem no_double_cons {c : CChar} {rest : CString} (hrest : ¬ [greater, greater] <:+: rest)
    (hnext : c = greater → rest.head? ≠ some greater) :
    ¬ [greater, greater] <:+: c :: rest := by
  rw [List.infix_cons_iff, not_or]
  refine ⟨fun hprefix => ?_, hrest⟩
  obtain ⟨tail, htail⟩ := hprefix
  obtain ⟨rfl, rfl⟩ : greater = c ∧ greater :: tail = rest := by simpa using htail
  exact hnext rfl rfl

theorem no_double_append {front rest : CString} (hfront : greater ∉ front)
    (hrest : ¬ [greater, greater] <:+: rest) : ¬ [greater, greater] <:+: front ++ rest := by
  induction front with
  | nil => exact hrest
  | cons c front ih =>
      rw [List.mem_cons, not_or] at hfront
      exact no_double_cons (ih hfront.2) fun hc => absurd hc.symm hfront.1

theorem no_double_blanks {front : CString} (hfront : ¬ [greater, greater] <:+: front)
    (count : ℕ) : ¬ [greater, greater] <:+: front ++ blanks count := by
  intro hin
  have hreverse := List.reverse_infix.mpr hin
  rw [List.reverse_append] at hreverse
  revert hreverse
  apply no_double_append
  · rw [List.mem_reverse]
    exact (white_blanks count).not_mem (by decide)
  · exact fun hback => hfront (List.reverse_infix.mp hback)

/-- A command without a `>>` operator has no `>>` in it. -/
theorem no_double_spell {text : CString} {ops : List SpacedOp}
    (hfit : TextsFit text (ops.map SpacedOp.part)) (hapart : ops.IsChain KeptApart)
    (hnot : ∀ spaced ∈ ops, spaced.op ≠ .append) :
    ¬ [greater, greater] <:+: spell text ops := by
  induction ops generalizing text with
  | nil => exact fun hin => hfit.not_mem_byte .output (hin.subset List.mem_cons_self)
  | cons spaced rest ih =>
      have hfront : greater ∉ text ++ blanks spaced.before :=
        List.not_mem_append (hfit.noOperator.not_mem_byte .output)
          ((white_blanks _).not_mem (by decide))
      have hback : ¬ [greater, greater] <:+: blanks spaced.behind ++ spell spaced.text rest := by
        apply no_double_append ((white_blanks _).not_mem (by decide))
        exact ih hfit.2 hapart.tail fun other hother => hnot other (List.mem_cons_of_mem _ hother)
      have hbytes : spaced.op.text = [spaced.op.byte] := by
        have happend := hnot spaced List.mem_cons_self
        cases hop : spaced.op <;> first | rfl | exact absurd hop happend
      rw [spell, hbytes, ← List.append_assoc]
      apply no_double_append hfront
      apply no_double_cons hback
      intro hbyte
      have hoperator : spaced.op = .output := by
        have happend := hnot spaced List.mem_cons_self
        cases hop : spaced.op <;> simp_all [RedirOp.byte] <;> exact absurd hbyte (by decide)
      apply head?_spell_ne_greater hfit.2
      intro hempty second hsecond
      exact hapart.rel_head? hsecond hoperator hempty

end BasC
