/-
# Where the cuts are made

Each search of `cli_parser_parse_redirections` splits its text at one operator: the operand
is the trimmed text behind it, and what is left is the text in front of it, without the
blank that belongs to the pattern. Which operator it is depends on the blanks around all
of them, unless there is only one. The first operator with blanks on both sides goes before
every other.
-/

import BasC.Cli.ReadCommand

namespace BasC

open CChar Lib

/-- White space only. -/
def White (text : CString) : Prop := ∀ c ∈ text, isspace c = true

instance (text : CString) : Decidable (White text) :=
  inferInstanceAs (Decidable (∀ c ∈ text, isspace c = true))

theorem white_nil : White [] := fun _ hc => absurd hc List.not_mem_nil

theorem white_append {first second : CString} :
    White (first ++ second) ↔ White first ∧ White second :=
  List.forall_mem_append

theorem white_cons_blank {text : CString} : White (blank :: text) ↔ White text := by
  rw [White, List.forall_mem_cons]
  exact and_iff_right isspace_blank

theorem White.not_mem {text : CString} (hwhite : White text) {c : CChar}
    (hc : isspace c = false) : c ∉ text := fun hin => by
  simp [hwhite c hin] at hc

theorem dropTrailingSpaces_eq_nil_iff (text : CString) :
    dropTrailingSpaces text = [] ↔ White text :=
  List.rdropWhile_eq_nil_iff

theorem dropTrailingSpaces_append_white (text : CString) {tail : CString} (htail : White tail) :
    dropTrailingSpaces (text ++ tail) = dropTrailingSpaces text := by
  rw [dropTrailingSpaces_append, if_pos ((dropTrailingSpaces_eq_nil_iff tail).mpr htail)]

theorem dropTrailingSpaces_append_cons (before : CString) {c : CChar} (hc : isspace c = false)
    (after : CString) :
    dropTrailingSpaces (before ++ c :: after) = before ++ c :: dropTrailingSpaces after := by
  have hword : dropTrailingSpaces ([c] ++ after) = [c] ++ dropTrailingSpaces after :=
    dropTrailingSpaces_word_append (by simpa using hc) after
  rw [dropTrailingSpaces_append, if_neg] <;> simp_all

/-- It does not matter which end is trimmed first. -/
theorem trimWhitespace_eq (text : CString) :
    trimWhitespace text = skipSpaces (dropTrailingSpaces text) := by
  obtain ⟨lead, hlead, hwhite⟩ := exists_spaces_append_skipSpaces text
  have hend : dropTrailingSpaces text =
      if trimWhitespace text = [] then [] else lead ++ trimWhitespace text := by
    conv_lhs => rw [hlead, dropTrailingSpaces_append]
    rw [(dropTrailingSpaces_eq_nil_iff lead).mpr hwhite]
    rfl
  rw [hend]
  split
  · assumption
  · rw [skipSpaces_spaces_append hwhite, skipSpaces_trimWhitespace]

theorem trimWhitespace_congr {text other : CString}
    (hend : dropTrailingSpaces text = dropTrailingSpaces other) :
    trimWhitespace text = trimWhitespace other := by
  rw [trimWhitespace_eq, hend, ← trimWhitespace_eq]

theorem trimWhitespace_append_white (text : CString) {tail : CString} (htail : White tail) :
    trimWhitespace (text ++ tail) = trimWhitespace text :=
  trimWhitespace_congr (dropTrailingSpaces_append_white text htail)

theorem trimWhitespace_white_append {lead : CString} (hlead : White lead) (text : CString) :
    trimWhitespace (lead ++ text) = trimWhitespace text := by
  rw [trimWhitespace, skipSpaces_spaces_append hlead, ← trimWhitespace]

/-- A text that reads like one with an operator in it has the operator at the same place. -/
theorem exists_append_cons_of_trailing {text before after : CString} {c : CChar}
    (hc : isspace c = false)
    (hend : dropTrailingSpaces text = dropTrailingSpaces (before ++ c :: after)) :
    ∃ tail, White tail ∧ text = before ++ c :: (dropTrailingSpaces after ++ tail) := by
  obtain ⟨tail, htext, htail⟩ := exists_dropTrailingSpaces_append text
  refine ⟨tail, htail, ?_⟩
  rw [hend, dropTrailingSpaces_append_cons before hc] at htext
  simpa using htext

/-- The text is cut at an operator into what is left of it and the operand. -/
def CutsAt (op text : CString) (cut : CString × CString) : Prop :=
  ∃ before after, text = before ++ (op ++ after) ∧
    dropTrailingSpaces cut.1 = dropTrailingSpaces before ∧ cut.2 = trimWhitespace after

theorem exists_of_cutFirst {needle text : CString} {cut : CString × CString}
    (hcut : cutFirst needle text = some cut) :
    ∃ after, text = cut.1 ++ (needle ++ after) ∧ cut.2 = trimWhitespace after := by
  obtain ⟨⟨left, rest⟩, hfound, rfl⟩ := Option.map_eq_some_iff.mp hcut
  obtain ⟨rfl, after, rfl⟩ := strstr_eq_some hfound
  exact ⟨after, rfl, by rw [List.drop_left]⟩

theorem cutsAt_of_cutFirst (lead trail : CString) {op text : CString} {cut : CString × CString}
    (hlead : White lead) (htrail : White trail)
    (hcut : cutFirst (lead ++ (op ++ trail)) text = some cut) : CutsAt op text cut := by
  obtain ⟨after, rfl, hoperand⟩ := exists_of_cutFirst hcut
  refine ⟨cut.1 ++ lead, trail ++ after, by simp,
    (dropTrailingSpaces_append_white cut.1 hlead).symm, ?_⟩
  rw [trimWhitespace_white_append htrail, hoperand]

theorem cutsAt_of_cutLast {op : CChar} {text : CString} {cut : CString × CString}
    (hcut : cutLast op text = some cut) : CutsAt [op] text cut := by
  obtain ⟨⟨before, rest⟩, hfound, rfl⟩ := Option.map_eq_some_iff.mp hcut
  obtain ⟨rfl, after, rfl, -⟩ := strrchr_eq_some hfound
  exact ⟨before, after, rfl, rfl, rfl⟩

theorem cutsAt_of_cutSpaced {op text : CString} {cut : CString × CString}
    (hcut : cutSpaced op text = some cut) : CutsAt op text cut := by
  have hblank : White [blank] := white_cons_blank.mpr white_nil
  rw [cutSpaced, Option.or_eq_some_iff, Option.or_eq_some_iff] at hcut
  rcases hcut with hboth | ⟨-, hbehind | ⟨-, hfront⟩⟩
  · exact cutsAt_of_cutFirst [blank] [blank] hblank hblank hboth
  · exact cutsAt_of_cutFirst [] [blank] white_nil hblank hbehind
  · apply cutsAt_of_cutFirst [blank] [] hblank white_nil
    simpa using hfront

/-- The searches for one operator byte that end with the last of them. -/
def cutByte (op : CChar) (cmdTrim : CString) : Option (CString × CString) :=
  (cutSpaced [op] cmdTrim).or (cutLast op cmdTrim)

theorem cutInput_eq : cutInput = cutByte less := rfl

theorem cutPipe_eq : cutPipe = cutByte bar := rfl

/-- The searches for an operator: they find it wherever it is, cut there, and begin with
the patterns that have a blank. -/
structure Searches (cut : CString → Option (CString × CString)) (op : CString) : Prop where
  eq_none_iff : ∀ text, cut text = none ↔ ¬ op <:+: text
  cutsAt : ∀ {text found}, cut text = some found → CutsAt op text found
  of_spaced : ∀ {text found}, cutSpaced op text = some found → cut text = some found

theorem searches_byte (op : CChar) : Searches (cutByte op) [op] where
  eq_none_iff text := by
    rw [cutByte, cutSpaced_or_cutLast_eq_none_iff, List.singleton_infix_iff]
  cutsAt hcut := by
    rcases Option.or_eq_some_iff.mp hcut with hspaced | ⟨-, hlast⟩
    · exact cutsAt_of_cutSpaced hspaced
    · exact cutsAt_of_cutLast hlast
  of_spaced hspaced := by rw [cutByte, hspaced, Option.some_or]

theorem searches_append : Searches cutAppend [greater, greater] where
  eq_none_iff := cutAppend_eq_none_iff
  cutsAt hcut := by
    rcases Option.or_eq_some_iff.mp hcut with hspaced | ⟨-, hbare⟩
    · exact cutsAt_of_cutSpaced hspaced
    · apply cutsAt_of_cutFirst [] [] white_nil white_nil
      simpa using hbare
  of_spaced hspaced := by rw [cutAppend, hspaced, Option.some_or]

/-- The operator is nowhere else in the text. -/
def OnlyAt (op before after : CString) : Prop :=
  ∀ left right, before ++ (op ++ after) = left ++ (op ++ right) → left = before

theorem onlyAt_byte {op : CChar} {before after : CString} (hbefore : op ∉ before)
    (hafter : op ∉ after) : OnlyAt [op] before after := by
  intro left right hsplit
  exact ((List.append_cons_inj_of_notMem hbefore hafter).mp hsplit).1.symm

/-- No other `>` is next to the operator, and no other `>>` in the text. -/
theorem onlyAt_append {before after : CString} (hbefore : ¬ [greater, greater] <:+: before)
    (hlast : before.getLast? ≠ some greater) (hafter : ¬ [greater, greater] <:+: after)
    (hnext : after.head? ≠ some greater) : OnlyAt [greater, greater] before after := by
  intro left right hsplit
  rcases List.append_eq_append_iff.mp hsplit with ⟨mid, rfl, hmid⟩ | ⟨mid, rfl, hmid⟩
  · -- the other `>>` begins inside this one or behind it
    match mid with
    | [] => simp
    | [c] =>
        obtain ⟨rfl, hright⟩ : greater = c ∧ greater :: after = greater :: greater :: right := by
          simpa using hmid
        simp [List.tail_eq_of_cons_eq hright] at hnext
    | c :: d :: mid =>
        obtain ⟨-, -, rfl⟩ : greater = c ∧ greater = d ∧
            after = mid ++ greater :: greater :: right := by simpa using hmid
        exact absurd ⟨mid, right, by simp⟩ hafter
  · -- or in front of it
    match mid with
    | [] => simp
    | [c] =>
        obtain ⟨rfl, -⟩ : greater = c ∧ _ := by simpa using hmid
        simp at hlast
    | c :: d :: mid =>
        obtain ⟨rfl, rfl, -⟩ : greater = c ∧ greater = d ∧ _ := by simpa using hmid
        exact absurd ⟨left, mid, by simp⟩ hbefore

theorem CutsAt.of_only {op before after : CString} {cut : CString × CString}
    (honly : OnlyAt op before after) (hcut : CutsAt op (before ++ (op ++ after)) cut) :
    dropTrailingSpaces cut.1 = dropTrailingSpaces before ∧ cut.2 = trimWhitespace after := by
  obtain ⟨left, right, hsplit, hleft, hoperand⟩ := hcut
  obtain rfl := honly left right hsplit
  obtain rfl : after = right := by simpa using hsplit
  exact ⟨hleft, hoperand⟩

namespace Searches

variable {cut : CString → Option (CString × CString)} {op before after text : CString}

theorem take_of_not_occurs (hcut : Searches cut op) (hnot : ¬ op <:+: text) :
    takeOperand cut text = (text, none) :=
  takeOperand_fst_of_none ((hcut.eq_none_iff text).mpr hnot)

/-- The only operator in the text is found, whatever stands around it. -/
theorem take_of_only (hcut : Searches cut op) (honly : OnlyAt op before after) :
    ∃ left, takeOperand cut (before ++ (op ++ after)) = (left, some (trimWhitespace after)) ∧
      dropTrailingSpaces left = dropTrailingSpaces before := by
  cases hfound : cut (before ++ (op ++ after)) with
  | none =>
      have hnot := (hcut.eq_none_iff _).mp hfound
      exact absurd ⟨before, after, by simp⟩ hnot
  | some found =>
      obtain ⟨hleft, hoperand⟩ := (hcut.cutsAt hfound).of_only honly
      refine ⟨found.1, ?_, hleft⟩
      rw [takeOperand, hfound, ← hoperand]

end Searches

section Byte

variable {op : CChar} {text before after : CString}

/-- The text may have lost or kept white space behind an operator cut off before. -/
theorem takeByte_of_not_mem (hop : isspace op = false) {other : CString} (hnot : op ∉ other)
    (htext : dropTrailingSpaces text = dropTrailingSpaces other) :
    takeOperand (cutByte op) text = (text, none) := by
  apply (searches_byte op).take_of_not_occurs
  intro hin
  obtain ⟨tail, hsplit, htail⟩ := exists_dropTrailingSpaces_append text
  rw [hsplit, htext, List.singleton_infix_iff, List.mem_append] at hin
  rcases hin with hfront | htrail
  · exact hnot ((dropTrailingSpaces_isPrefix other).subset hfront)
  · exact White.not_mem htail hop htrail

theorem takeByte_of_only (hop : isspace op = false) (hbefore : op ∉ before) (hafter : op ∉ after)
    (htext : dropTrailingSpaces text = dropTrailingSpaces (before ++ op :: after)) :
    ∃ left, takeOperand (cutByte op) text = (left, some (trimWhitespace after)) ∧
      dropTrailingSpaces left = dropTrailingSpaces before := by
  obtain ⟨tail, htail, rfl⟩ := exists_append_cons_of_trailing hop htext
  have hrest : op ∉ dropTrailingSpaces after ++ tail := by
    rw [List.mem_append, not_or]
    exact ⟨fun hin => hafter ((dropTrailingSpaces_isPrefix after).subset hin), htail.not_mem hop⟩
  have hoperand : trimWhitespace (dropTrailingSpaces after ++ tail) = trimWhitespace after := by
    rw [trimWhitespace_append_white _ htail]
    exact trimWhitespace_congr (dropTrailingSpaces_idempotent after)
  rw [← hoperand]
  exact (searches_byte op).take_of_only (onlyAt_byte hbefore hrest)

end Byte

theorem takeOutput_eq_append {text : CString} (hin : [greater, greater] <:+: text) :
    takeOutput text =
      ((takeOperand cutAppend text).1, (takeOperand cutAppend text).2, true) := by
  cases hfound : cutAppend text with
  | none => exact absurd hin ((cutAppend_eq_none_iff text).mp hfound)
  | some cut => simp [takeOutput, takeOperand, hfound]

theorem takeOutput_eq_byte {text : CString} (hnot : ¬ [greater, greater] <:+: text) :
    takeOutput text =
      ((takeOperand (cutByte greater) text).1, (takeOperand (cutByte greater) text).2, false) := by
  have hsingle : cutOutput text = cutByte greater text := by
    rw [cutOutput, cutLastGreater_eq hnot, ← cutByte]
  rw [takeOutput, (cutAppend_eq_none_iff text).mpr hnot, hsingle, takeOperand]
  cases cutByte greater text <;> rfl

/-- The pattern with blanks on both sides is tried first, and from the left. -/
theorem cutSpaced_of_first {op before : CString} (hop : blank ∉ op) (hfirst : ¬ op <:+: before)
    (after : CString) :
    cutSpaced op (before ++ blank :: (op ++ blank :: after)) =
      some (before, trimWhitespace after) := by
  have hlater : ¬ (blank :: (op ++ [blank])) <:+:
      before ++ (blank :: (op ++ [blank])).dropLast := by
    rintro ⟨left, right, hsplit⟩
    have hshape : (left ++ blank :: op) ++ blank :: right = before ++ blank :: op := by
      rw [List.dropLast_cons_of_ne_nil (by simp), List.dropLast_concat] at hsplit
      simpa using hsplit
    rcases List.append_eq_append_iff.mp hshape with ⟨mid, rfl, -⟩ | ⟨mid, hmid, hrest⟩
    · exact hfirst ⟨left ++ [blank], mid, by simp⟩
    · cases mid with
      | nil => exact hfirst ⟨left ++ [blank], [], by simpa using hmid⟩
      | cons c mid =>
          obtain ⟨-, rfl⟩ : blank = c ∧ op = mid ++ blank :: right := by simpa using hrest
          simp at hop
  have hfound := strstr_of_first hlater after
  rw [cutSpaced, cutFirst]
  simp_all

/-- A `>` that has no blank in front of it is passed over for the next one that has blanks
on both sides. -/
theorem cutSpaced_of_second {op : CChar} {before gap : CString} (hop : isspace op = false)
    (hbefore : op ∉ before) (hlast : before.getLast? ≠ some blank) (hgap : op ∉ gap)
    (after : CString) :
    cutSpaced [op] (before ++ op :: (gap ++ blank :: op :: blank :: after)) =
      some (before ++ op :: gap, trimWhitespace after) := by
  have hlater : ¬ [blank, op, blank] <:+: (before ++ op :: gap) ++ [blank, op, blank].dropLast := by
    rintro ⟨left, right, hsplit⟩
    have hshape : (left ++ [blank]) ++ op :: blank :: right =
        before ++ op :: (gap ++ blank :: [op]) := by simpa using hsplit
    rcases List.append_eq_append_iff.mp hshape with ⟨mid, rfl, hrest⟩ | ⟨mid, hmid, hrest⟩
    · -- the pattern begins in front of the first operator
      cases mid with
      | nil => simp at hlast
      | cons c mid =>
          obtain ⟨rfl, -⟩ : op = c ∧ _ := by simpa using hrest
          simp at hbefore
    · cases mid with
      | nil =>
          obtain rfl : left ++ [blank] = before := by simpa using hmid
          simp at hlast
      | cons c mid =>
          -- it needs a blank behind the last operator
          obtain ⟨-, hend⟩ : op = c ∧ gap ++ blank :: [op] = mid ++ op :: blank :: right := by
            simpa using hrest
          have hnot : op ∉ gap ++ [blank] := by
            rw [List.mem_append, List.mem_singleton, not_or]
            exact ⟨hgap, fun hblank => by simp [hblank, isspace_blank] at hop⟩
          have hbare : (gap ++ [blank]) ++ op :: [] = mid ++ op :: blank :: right := by
            simpa using hend
          have hinj := (List.append_cons_inj_of_notMem hnot List.not_mem_nil).mp hbare
          simp at hinj
  have hfound := strstr_of_first hlater after
  rw [cutSpaced, cutFirst]
  simp_all

/-- White space is all that trimming takes behind the operator. -/
def Solid (op : CString) : Prop :=
  ∀ before tail, White tail → dropTrailingSpaces (before ++ (op ++ tail)) = before ++ op

/-- Where the operator has a blank behind it somewhere, one of the two patterns with that
blank is found. -/
theorem exists_of_cutSpaced_behind {op text : CString} (hbehind : op ++ [blank] <:+: text)
    {cut : CString × CString} (hcut : cutSpaced op text = some cut) :
    ∃ left right, text = left ++ (op ++ blank :: right) ∧ cut.2 = trimWhitespace right := by
  rw [cutSpaced, Option.or_eq_some_iff, Option.or_eq_some_iff, cutFirst_eq_none_iff] at hcut
  rcases hcut with hboth | ⟨-, hfound | ⟨hnot, -⟩⟩
  · obtain ⟨right, hsplit, hoperand⟩ := exists_of_cutFirst hboth
    exact ⟨cut.1 ++ [blank], right, by simpa using hsplit, hoperand⟩
  · obtain ⟨right, hsplit, hoperand⟩ := exists_of_cutFirst hfound
    exact ⟨cut.1, right, by simpa using hsplit, hoperand⟩
  · exact absurd hbehind ((cutFirst_eq_none_iff _ _).mp hnot)

/-- An operator that stands behind another one with a blank only behind itself is not the
operand of the first. -/
theorem cutSpaced_ne {op second before gap tail : CString} (hop : Solid op)
    (hsecond : Solid second) (hgap : White gap) (hhead : gap.head? ≠ some blank)
    (htail : White tail)
    (hbehind : op ++ [blank] <:+: before ++ (op ++ (gap ++ (second ++ tail))))
    {cut : CString × CString}
    (hcut : cutSpaced op (before ++ (op ++ (gap ++ (second ++ tail)))) = some cut) :
    cut.2 ≠ second := by
  intro hoperand
  obtain ⟨left, right, hsplit, hright⟩ := exists_of_cutSpaced_behind hbehind hcut
  obtain ⟨spaces, rest, hspaces, hfront, -, hrest⟩ := exists_trimWhitespace right
  rw [← hright, hoperand] at hspaces
  have hends : (before ++ (op ++ gap)) ++ second = (left ++ (op ++ blank :: spaces)) ++ second := by
    rw [← hsecond _ tail htail, ← hsecond _ rest hrest]
    simp_all
  have hgaps := List.append_cancel_right hends
  have hbefore : before = left := by
    have hcut := congrArg dropTrailingSpaces hgaps
    rw [hop _ gap hgap, hop _ _ (white_cons_blank.mpr hfront)] at hcut
    exact List.append_cancel_right hcut
  subst hbefore
  simp_all

/-- Such an operator is not found as the operand of the first. -/
theorem Searches.take_ne {cut : CString → Option (CString × CString)} {op : CString}
    (hcut : Searches cut op) {second before gap tail : CString} (hop : Solid op)
    (hsecond : Solid second) (hgap : White gap) (hhead : gap.head? ≠ some blank)
    (htail : White tail)
    (hbehind : op ++ [blank] <:+: before ++ (op ++ (gap ++ (second ++ tail)))) :
    (takeOperand cut (before ++ (op ++ (gap ++ (second ++ tail))))).2 ≠ some second := by
  cases hfound : cutSpaced op (before ++ (op ++ (gap ++ (second ++ tail)))) with
  | none =>
      rw [cutSpaced, Option.or_eq_none_iff, Option.or_eq_none_iff] at hfound
      exact absurd hbehind ((cutFirst_eq_none_iff _ _).mp hfound.2.1)
  | some found =>
      rw [takeOperand, hcut.of_spaced hfound]
      exact fun heq =>
        cutSpaced_ne hop hsecond hgap hhead htail hbehind hfound (Option.some.inj heq)

end BasC
